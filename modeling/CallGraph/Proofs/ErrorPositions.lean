import CallGraph.Proofs.Lexing.LongestMatch
import CallGraph.Proofs.Parsing.Nesting
import CallGraph.Proofs.Parsing.Steady

/-!
Where a text is said to be malformed. A line and a column belong to one offset of the text at most,
and those that are told belong to the offset where reading stops. There stands a token, the end of
the text, or a character with which no lexeme begins.
-/

namespace CallGraph

open Lexeme TokenStream

/-! ## Lines and columns -/

/-- The text is whole lines and then `last`, which has no line break. -/
def LastLine (text last : List Char) : Prop :=
  ∃ lines, text = lines ++ last ∧ (∀ c ∈ lines.getLast?, c = '\n') ∧ '\n' ∉ last

namespace LastLine

variable {text last last' : List Char}

theorem append (h : LastLine text last) {more : List Char} (hmore : '\n' ∉ more) :
    LastLine (text ++ more) (last ++ more) := by
  obtain ⟨lines, rfl, hlines, hlast⟩ := h
  refine ⟨lines, List.append_assoc .., hlines, fun hmem => ?_⟩
  exact (List.mem_append.1 hmem).elim hlast hmore

/-- Whole lines do not end within a line. -/
theorem eq_nil_of_lines {lines more : List Char} (hlines : ∀ c ∈ (lines ++ more).getLast?, c = '\n')
    (hmore : '\n' ∉ more) : more = [] := by
  rcases List.eq_nil_or_concat more with rfl | ⟨start, c, rfl⟩
  · rfl
  · rw [List.concat_eq_append] at hlines hmore
    obtain rfl : c = '\n' := by
      apply hlines
      rw [← List.append_assoc, List.getLast?_concat]
      exact Option.mem_some_self c
    exact absurd (List.mem_append_right start List.mem_cons_self) hmore

theorem unique (h : LastLine text last) (h' : LastLine text last') : last = last' := by
  obtain ⟨lines, rfl, hlines, hlast⟩ := h
  obtain ⟨lines', heq, hlines', hlast'⟩ := h'
  rcases List.append_eq_append_iff.1 heq with ⟨more, rfl, rfl⟩ | ⟨more, rfl, rfl⟩
  · rw [eq_nil_of_lines hlines' fun hmem => hlast (List.mem_append_left last' hmem)]
    rfl
  · rw [eq_nil_of_lines hlines fun hmem => hlast' (List.mem_append_left last hmem)]
    rfl

end LastLine

theorem lastLine_takeWhile (text : List Char) :
    LastLine text (text.reverse.takeWhile (· != '\n')).reverse := by
  refine ⟨(text.reverse.dropWhile (· != '\n')).reverse, ?_, ?_, ?_⟩
  · rw [← List.reverse_append, List.takeWhile_append_dropWhile, List.reverse_reverse]
  · intro c hc
    rw [List.getLast?_reverse] at hc
    have hhead := List.head?_dropWhile_not (· != '\n') text.reverse
    rw [Option.mem_def.1 hc] at hhead
    simpa using hhead
  · intro hmem
    have hbreak := List.all_eq_true.1 List.all_takeWhile _ (List.mem_reverse.1 hmem)
    cases hbreak

namespace Position

/-- The position is that of an offset: the line is one more than the line breaks before the offset,
and the column is one more than the characters after the last of them. -/
structure Marks (p : Position) (text : List Char) (offset : Nat) : Prop where
  le : offset ≤ text.length
  line : p.line = (text.take offset).count '\n' + 1
  column : ∃ last, LastLine (text.take offset) last ∧ p.column = last.length + 1

variable {p : Position} {text : List Char} {m n : Nat}

theorem marks_ofOffset (h : n ≤ text.length) : (ofOffset text n).Marks text n where
  le := h
  line := rfl
  column := ⟨_, lastLine_takeWhile (text.take n), by rw [ofOffset, List.length_reverse]⟩

theorem Marks.eq_of_le (hm : p.Marks text m) (hn : p.Marks text n) (hle : m ≤ n) : m = n := by
  obtain ⟨k, rfl⟩ := Nat.exists_eq_add_of_le hle
  obtain ⟨last, hlast, hcolumn⟩ := hm.column
  obtain ⟨last', hlast', hcolumn'⟩ := hn.column
  have hline := hm.line.symm.trans hn.line
  rw [List.take_add] at hlast' hline
  rw [List.count_append] at hline
  -- The lines are the same, so there is no line break in between, and the columns count all of it.
  have hunbroken : '\n' ∉ (text.drop m).take k := List.count_eq_zero.1 (by omega)
  have hlength := congrArg List.length (hlast'.unique (hlast.append hunbroken))
  rw [List.length_append, List.length_take, List.length_drop] at hlength
  have hbound := hn.le
  omega

theorem Marks.unique (hm : p.Marks text m) (hn : p.Marks text n) : m = n := by
  rcases Nat.le_total m n with hle | hle
  · exact hm.eq_of_le hn hle
  · exact (hn.eq_of_le hm hle).symm

end Position

/-! ## Where reading stops -/

/-- What stands at an offset where reading stops, and what is said of it. -/
inductive StopsAt (text : List Char) : Nat → String → Prop
  | token {ls ls' : List Lexeme} {k : Kind} {s : List Char} {value : String}
      (wanted : Expectation) : Munches text (ls ++ ⟨some k, s⟩ :: ls') [] →
      meaning k s = .ok value →
      StopsAt text (ls.flatMap spelling).length (wanted.message ++ ", found " ++ Text.quoted value)
  | ending {ls : List Lexeme} (wanted : Expectation) : Munches text ls [] →
      StopsAt text text.length (wanted.message ++ ", found " ++ Text.quoted "end of input")
  | character {ls : List Lexeme} {c : Char} {left : List Char} : Munches text ls (c :: left) →
      (∀ k, ∀ s ∈ language k, ¬ s <+: c :: left) →
      StopsAt text (ls.flatMap spelling).length
        ("unexpected character " ++ Text.quoted (String.singleton c))

theorem StopsAt.le {text : List Char} {offset : Nat} {message : String}
    (h : StopsAt text offset message) : offset ≤ text.length := by
  cases h with
  | token _ hls _ =>
    rw [hls.eq_append, List.flatMap_append, List.length_append, List.length_append]
    omega
  | ending => exact Nat.le_refl _
  | character hls _ =>
    rw [hls.eq_append, List.length_append]
    omega

/-- A token stands where its lexeme begins. -/
theorem Lexeme.HasTokens.exists_lexeme {o : Nat} {ls : List Lexeme} {ts : List Token} {t : Token}
    (h : HasTokens o ls ts) (ht : t ∈ ts) :
    ∃ before s after, ls = before ++ ⟨some t.kind, s⟩ :: after ∧ meaning t.kind s = .ok t.text ∧
      t.offset = o + (before.flatMap spelling).length := by
  induction h with
  | nil => cases ht
  | @blank o l ls ts _ ih =>
    obtain ⟨before, s, after, rfl, hmeaning, hoffset⟩ := ih ht
    refine ⟨⟨none, l⟩ :: before, s, after, rfl, hmeaning, ?_⟩
    rw [List.flatMap_cons, List.length_append, ← Nat.add_assoc, hoffset]
  | @token o k l text ls ts hmeaning _ ih =>
    rcases List.mem_cons.1 ht with rfl | ht
    · exact ⟨[], l, ls, rfl, hmeaning, rfl⟩
    · obtain ⟨before, s, after, rfl, hmeaning', hoffset⟩ := ih ht
      refine ⟨⟨some k, l⟩ :: before, s, after, rfl, hmeaning', ?_⟩
      rw [List.flatMap_cons, List.length_append, ← Nat.add_assoc, hoffset]

/-- The diagnostic is about the place where reading the text stops. -/
def Diagnostic.Exact (d : Diagnostic) (file : Option String) (text : List Char) : Prop :=
  ∃ offset message, StopsAt text offset message ∧
    d = .located file (.ofOffset text offset) message

theorem exact_of_tokensOfText {file : Option String} {text : String} {d : Diagnostic}
    (h : tokensOfText file text = .error (.malformed d)) : d.Exact file text.toList := by
  obtain ⟨n, c, hscan, rfl⟩ := tokensOfText_eq_malformed.1 h
  obtain ⟨ls, left, ts, hls, -, rfl, hnone⟩ := scan_eq_unexpected_iff.1 hscan
  refine ⟨_, _, .character hls (first?_eq_none_iff.1 hnone), ?_⟩
  rw [Nat.zero_add]

/-- Tokens that are not read are blamed at one of them, or at the end of the text. -/
theorem exact_of_failure {file : Option String} {text : List Char} {digits : Nat}
    {ts : List Token} {e : ParseFailure} {d : Diagnostic} (hscans : Scans 0 text ts)
    (hblames : e.Blames digits ts) (he : ReadError.ofParseFailure file text e = .malformed d)
    (hd : ReadError.malformed d ≠ .nesting file) : d.Exact file text := by
  obtain ⟨ls, hls, hts⟩ := scans_iff_munches.1 hscans
  cases e with
  | unexpected wanted found =>
    cases he
    cases found with
    | none => exact ⟨_, _, .ending wanted hls, rfl⟩
    | some t =>
      obtain ⟨before, s, after, rfl, hmeaning, hoffset⟩ := hts.exists_lexeme (hblames t rfl)
      refine ⟨_, _, .token wanted hls hmeaning, ?_⟩
      rw [Nat.zero_add] at hoffset
      rw [← hoffset]
      rfl
  | tooDeep => exact absurd he.symm hd
  | conversion e => cases he

theorem exact_of_readText {α : Type} {p : Parser α} {digits : Nat} {file : Option String}
    {text : String} {d : Diagnostic} (hp : p.Takes digits)
    (h : readText p.whole file text = .error (.malformed d))
    (hd : ReadError.malformed d ≠ .nesting file) : d.Exact file text.toList := by
  rw [readText] at h
  cases hstream : tokensOfText file text with
  | error e =>
    rw [hstream] at h
    cases h
    exact exact_of_tokensOfText hstream
  | ok stream =>
    rw [hstream] at h
    have hscans := (tokensOfText_eq_ok.1 hstream).1
    change (p.whole stream.tokens).mapError _ = _ at h
    cases hwhole : p.whole stream.tokens with
    | ok x =>
      rw [hwhole] at h
      cases h
    | error e =>
      rw [hwhole] at h
      exact exact_of_failure hscans (hp.blames_whole hwhole) (Except.error.inj h) hd

/-- A text that is malformed is so at one offset, the only one with the line and the column that are
told. There stands the token that is named, the end of the text, or the first character with which
no lexeme begins. Only of a text that nests too deeply no place is told. -/
theorem error_position_exact {file : Option String} {text : String} {d : Diagnostic}
    (h : tokensOfText file text = .error (.malformed d) ∨ ∃ limit,
      readText (moduleOfTokens limit) file text = .error (.malformed d) ∨
        readText (exprOfTokens limit) file text = .error (.malformed d))
    (hd : ReadError.malformed d ≠ .nesting file) :
    ∃ position offset message, d = .located file position message ∧
      StopsAt text.toList offset message ∧
      ∀ n, position.Marks text.toList n ↔ n = offset := by
  have hexact : d.Exact file text.toList := by
    rcases h with h | ⟨limit, h | h⟩
    · exact exact_of_tokensOfText h
    · exact exact_of_readText (Level.ofDepth_steady numeralLimit limit).unit.toTakes h hd
    · exact exact_of_readText (Level.ofDepth_steady numeralLimit limit).expr.toTakes h hd
  obtain ⟨offset, message, hstops, rfl⟩ := hexact
  have hmarks := Position.marks_ofOffset hstops.le
  refine ⟨_, offset, message, rfl, hstops, fun n => ⟨fun hn => hn.unique hmarks, ?_⟩⟩
  rintro rfl
  exact hmarks

/-- A token too many in the second line. -/
theorem error_position_exact_list :
    let text := "['a',\n 'b' 'c']"
    let d := Diagnostic.located none ⟨2, 6⟩ "expected ']', found 'c'"
    readText (exprOfTokens 3) none text = .error (.malformed d) ∧
      ReadError.malformed d ≠ .nesting none ∧
      ∃ position offset message, d = .located none position message ∧
        StopsAt text.toList offset message ∧
        ∀ n, position.Marks text.toList n ↔ n = offset := by
  have htokens : tokensOfText none "['a',\n 'b' 'c']" = .ok ⟨[⟨.punct, "[", 0⟩, ⟨.atom, "a", 1⟩,
      ⟨.punct, ",", 4⟩, ⟨.atom, "b", 7⟩, ⟨.atom, "c", 11⟩, ⟨.punct, "]", 14⟩], 15⟩ := by
    decide +kernel
  have hread : readText (exprOfTokens 3) none "['a',\n 'b' 'c']" =
      .error (.malformed (.located none ⟨2, 6⟩ "expected ']', found 'c'")) := by
    rw [readText, htokens]
    rfl
  exact ⟨hread, by decide, error_position_exact (.inr ⟨3, .inr hread⟩) (by decide)⟩

end CallGraph
