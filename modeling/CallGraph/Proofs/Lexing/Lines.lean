import CallGraph.Proofs.Lexing.Texts

/-!
Texts that follow each other on lines of their own. Main statement: the tokens of two texts with a
line break between them are those of the first and those of the second, and a fault in the second is
reported where it stands.
-/

namespace CallGraph

open Text

variable {cs q rest : List Char}

namespace Lexeme

/-! ## Line breaks -/

theorem first?_of_isBlank {c : Char} (hc : isBlank c = true) (cs : List Char) :
    first? (c :: cs) = some (⟨none, c :: cs.takeWhile isBlank⟩, cs.dropWhile isBlank) := by
  rw [first?, Scanner.blank_cons (by rintro rfl; cases hc), if_pos hc]

/-- A blank lexeme that goes over the end of a line is a row of blanks. -/
theorem isBlank_of_lineBreak {y : List Char}
    (h : Scanner.blank (cs ++ '\n' :: q) = some (cs ++ '\n' :: y, rest)) (hne : cs ≠ []) :
    ∀ c ∈ cs, isBlank c = true := by
  rcases cs with _ | ⟨c, cs⟩
  · exact absurd rfl hne
  rw [List.cons_append] at h
  by_cases hc : c = '%'
  · rw [hc, Scanner.blank_comment] at h
    have hl := List.cons.inj (Prod.mk.inj (Option.some.inj h)).1
    have hmem : '\n' ∈ (cs ++ '\n' :: q).takeWhile (· != '\n') := by
      rw [hl.2]
      exact List.mem_append_right _ List.mem_cons_self
    cases of_mem_takeWhile hmem
  · rw [Scanner.blank_cons hc] at h
    split at h
    next hblank =>
      have hl := List.cons.inj (Prod.mk.inj (Option.some.inj h)).1
      refine List.forall_mem_cons.2 ⟨hblank, fun d hd => ?_⟩
      have hmem : d ∈ (cs ++ '\n' :: q).takeWhile isBlank := by
        rw [hl.2]
        exact List.mem_append_left _ hd
      exact of_mem_takeWhile hmem
    next => cases h

theorem char_of_lineBreak {l : List Char} (h : Scanner.char (cs ++ '\n' :: q) = some (l, rest))
    (hl : l = cs ++ ['\n']) : first? cs = none ∨ cs = ['$', '\\', '^'] := by
  rcases Scanner.char_eq_some.1 h with ⟨es, hes, -, rfl⟩ | ⟨c, -, -, rfl⟩
  · obtain ⟨-, hescape⟩ := Scanner.charEscape_eq_some.1 hes
    cases hescape with
    | octal hoctal hne =>
      have hmem : '\n' ∈ '$' :: '\\' :: es := by
        rw [hl]
        exact List.mem_append_right _ List.mem_cons_self
      have hoctal' : '\n' ∈ Escape.octalRun (es ++ rest) := by
        rw [hoctal]
        simpa using hmem
      cases of_mem_takeWhile hoctal'
    | @braced ds _ hds hne =>
      have hcs : ('$' :: '\\' :: 'x' :: '{' :: ds) ++ ['}'] = cs ++ ['\n'] := hl
      have hlast := List.append_inj_right' hcs rfl
      simp at hlast
    | control c =>
      have hcs := congrArg List.dropLast hl
      simp only [List.dropLast_concat] at hcs
      exact .inr hcs.symm
    | single =>
      have hcs := congrArg List.dropLast hl
      simp only [List.dropLast_concat] at hcs
      rw [← hcs]
      exact .inl rfl
  · have hcs := congrArg List.dropLast hl
    simp only [List.dropLast_concat] at hcs
    rw [← hcs]
    exact .inl rfl

/-- A token that goes over the end of a line is quoted or escaped. -/
theorem first?_of_lineBreak {k : Kind} {y : List Char}
    (h : first? (cs ++ '\n' :: q) = some (⟨some k, cs ++ '\n' :: y⟩, rest)) (hne : cs ≠ []) :
    first? cs = none ∨ cs = ['$', '\\', '^'] := by
  have hk := ofKind_of_first? h
  have hlength : cs.length < (cs ++ '\n' :: y).length := by simp
  have hmem : '\n' ∈ cs ++ '\n' :: y := List.mem_append_right _ List.mem_cons_self
  cases k with
  | atom => exact .inl (quoted_of_cut (.inl rfl) hk hne hlength)
  | string => exact .inl (quoted_of_cut (.inr rfl) hk hne hlength)
  | float => cases Scanner.numeric_signed Scanner.numeric_decimal hk '\n' hmem
  | integer => cases Scanner.numeric_signed Scanner.numeric_digits hk '\n' hmem
  | var | name =>
    have htail : '\n' ∈ (cs ++ '\n' :: y).tail := by
      rw [List.tail_append_of_ne_nil hne]
      exact List.mem_append_right _ List.mem_cons_self
    cases Scanner.isWordChar_of_word hk '\n' htail
  | punct =>
    rcases cs with _ | ⟨c, cs⟩
    · exact absurd rfl hne
    rcases Scanner.punct_eq_some.1 hk with ⟨a, b, hab, -, hl⟩ | ⟨a, -, -, hl, -⟩
    · obtain ⟨rfl, hcs⟩ := List.cons.inj hl
      have hb : '\n' ∈ [b] := by
        rw [← hcs]
        exact List.mem_append_right _ List.mem_cons_self
      rw [← List.mem_singleton.1 hb] at hab
      simp [Scanner.twoCharMarks] at hab
    · simp at hl
  | char =>
    cases y with
    | nil => exact char_of_lineBreak hk rfl
    | cons d y =>
      have hdrop : '\n' ∈ (cs ++ '\n' :: d :: y).dropLast := by
        rw [List.dropLast_append_of_ne_nil (List.cons_ne_nil _ _)]
        exact List.mem_append_right _ List.mem_cons_self
      cases Scanner.escape_of_char hk '\n' hdrop

end Lexeme

/-! ## Places -/

/-- The token in a text that begins `d` characters later. -/
def Token.shift (d : Nat) (t : Token) : Token := { t with offset := d + t.offset }

/-- The fault in a text that begins `d` characters later. -/
def LexError.shift (d : Nat) : LexError → LexError
  | .unexpected offset c => .unexpected (d + offset) c
  | .conversion e => .conversion e

theorem Lexeme.token?_shift (lx : Lexeme) (d o : Nat) :
    lx.token? (d + o) = (lx.token? o).map (Option.map (Token.shift d)) := by
  obtain ⟨_ | k, l⟩ := lx
  · rfl
  · simp only [token?]
    cases meaning k l <;> rfl

namespace TokenStream

variable {o : Nat} {ts : List Token}

/-- Only the places depend on where a text begins. -/
theorem scan_shift (d o : Nat) (cs : List Char) :
    scan (d + o) cs = ((scan o cs).map (List.map (Token.shift d))).mapError (LexError.shift d) := by
  induction hn : cs.length using Nat.strongRecOn generalizing cs o with
  | ind n ih =>
    cases hfirst : Lexeme.first? cs with
    | none =>
      cases cs with
      | nil => rw [scan_nil, scan_nil]; rfl
      | cons c cs => rw [scan_of_none hfirst, scan_of_none hfirst]; rfl
    | some r =>
      obtain ⟨lx, rest⟩ := r
      have hshift := lx.token?_shift d o
      cases htoken : lx.token? o with
      | error e =>
        rw [htoken] at hshift
        rw [scan_of_error hfirst hshift, scan_of_error hfirst htoken]
        rfl
      | ok t =>
        rw [htoken] at hshift
        have hrest := ih _ (hn ▸ Lexeme.length_lt_of_first? hfirst) (o + lx.spelling.length) rest rfl
        rw [scan_of_first? hfirst hshift, scan_of_first? hfirst htoken, Nat.add_assoc, hrest]
        cases scan (o + lx.spelling.length) rest with
        | error e => rfl
        | ok ts => cases t <;> rfl

theorem Scans.shift (h : Scans o cs ts) (d : Nat) : Scans (d + o) cs (ts.map (Token.shift d)) := by
  rw [← scan_eq_ok, scan_shift, scan_eq_ok.2 h]
  rfl

/-! ## Blanks -/

/-- Blanks in front of a text do not count. -/
theorem scan_dropWhile (o : Nat) (cs : List Char) :
    scan (o + (cs.takeWhile isBlank).length) (cs.dropWhile isBlank) = scan o cs := by
  rcases cs with _ | ⟨c, cs⟩
  · rfl
  cases hc : isBlank c with
  | false => simp [hc]
  | true =>
    rw [scan_of_first? (Lexeme.first?_of_isBlank hc cs) rfl, List.takeWhile_cons_of_pos hc,
      List.dropWhile_cons_of_pos hc]
    cases scan (o + (c :: cs.takeWhile isBlank).length) (cs.dropWhile isBlank) <;> rfl

theorem scan_cons_of_isBlank {c : Char} (hc : isBlank c = true) (o : Nat) (cs : List Char) :
    scan o (c :: cs) = scan (o + 1) cs := by
  rw [← scan_dropWhile (o + 1) cs, ← scan_dropWhile o (c :: cs), List.takeWhile_cons_of_pos hc,
    List.dropWhile_cons_of_pos hc, List.length_cons, Nat.add_assoc, Nat.add_comm 1]

theorem scan_append_of_isBlank {bs : List Char} (hbs : ∀ c ∈ bs, isBlank c = true) (o : Nat)
    (cs : List Char) : scan o (bs ++ cs) = scan (o + bs.length) cs := by
  induction bs generalizing o with
  | nil => rfl
  | cons c bs ih =>
    obtain ⟨hc, hbs⟩ := List.forall_mem_cons.1 hbs
    rw [List.cons_append, scan_cons_of_isBlank hc, ih hbs, List.length_cons, Nat.add_assoc,
      Nat.add_comm 1]

theorem Scans.blank {c : Char} (hc : isBlank c = true) (h : Scans (o + 1) cs ts) :
    Scans o (c :: cs) ts := by
  rwa [← scan_eq_ok, scan_cons_of_isBlank hc, scan_eq_ok]

theorem Scans.continued {ws : List Word} (h : ∀ w ∈ ws, w.Legible) (hrest : Apart rest)
    (hscans : Scans (o + (Word.continued ws).length) rest ts) :
    Scans o (Word.continued ws ++ rest) (Word.place (o + 1) ws ++ ts) := by
  induction ws generalizing o with
  | nil => exact hscans
  | cons w ws ih =>
    obtain ⟨hw, hws⟩ := List.forall_mem_cons.1 h
    have hapart : Apart (Word.continued ws ++ rest) := by
      cases ws with
      | nil => exact hrest
      | cons w ws => rfl
    rw [Word.continued, List.cons_append, List.append_assoc]
    refine .blank rfl (.next (hw.first? hapart) (w.token?_spelling _) (ih hws ?_))
    simpa [Word.continued, Nat.add_assoc, Nat.add_comm, Nat.add_left_comm] using hscans

end TokenStream

/-- A character that ends with its caret. Whatever follows it belongs to it. -/
def Token.OpenCaret (t : Token) : Prop := t.kind = .char ∧ t.text = "$\\^"

instance (t : Token) : Decidable t.OpenCaret := inferInstanceAs (Decidable (_ ∧ _))

namespace TokenStream

variable {o : Nat} {ts : List Token}

/-- After a text and a line break, another text is cut into tokens as if it stood alone. -/
theorem Scans.scan_append_line (h : Scans o cs ts) (hlast : ∀ t ∈ ts.getLast?, ¬ t.OpenCaret)
    (u : List Char) :
    scan o (cs ++ '\n' :: u) = (scan (o + cs.length + 1) u).map (ts ++ ·) := by
  have hline (bs : List Char) (hbs : ∀ c ∈ bs, isBlank c = true) (o : Nat) :
      scan o (bs ++ '\n' :: u) = (scan (o + bs.length + 1) u).map ([] ++ ·) := by
    rw [scan_append_of_isBlank hbs, scan_cons_of_isBlank rfl]
    cases scan (o + bs.length + 1) u <;> rfl
  induction h with
  | nil => exact hline [] (by simp) _
  | @next o cs rest lx t ts hfirst htoken hscans ih =>
    have hne : cs ≠ [] := by
      rintro rfl
      cases hfirst
    cases hfirst' : Lexeme.first? (cs ++ '\n' :: u) with
    | none => rw [Lexeme.first?_eq_none_of_append hfirst'] at hfirst; cases hfirst
    | some r =>
      obtain ⟨lx', rest'⟩ := r
      obtain ⟨hsplit, -⟩ := Lexeme.first?_eq hfirst'
      -- A lexeme that ends where the line ends, or before, is that of the text alone.
      have hwhole (tail : List Char) (htail : rest' = tail ++ '\n' :: u) :
          scan o (cs ++ '\n' :: u) =
            (scan (o + cs.length + 1) u).map (t.toList ++ ts ++ ·) := by
        rw [htail] at hfirst'
        rw [Lexeme.first?_of_append hfirst'] at hfirst
        obtain ⟨rfl, rfl⟩ := Prod.mk.inj (Option.some.inj hfirst)
        have hcs : cs = lx'.spelling ++ tail := List.append_cancel_right
          ((hsplit.trans (htail ▸ rfl)).trans (List.append_assoc ..).symm)
        have hlast' : ∀ u ∈ ts.getLast?, ¬ u.OpenCaret := by
          intro u hu
          refine hlast u ?_
          rw [Option.mem_def] at hu ⊢
          rw [List.getLast?_append, hu]
          rfl
        have hlength : o + lx'.spelling.length + tail.length + 1 = o + cs.length + 1 := by
          rw [hcs, List.length_append, Nat.add_assoc o]
        rw [scan_of_first? hfirst' htoken, ih hlast', hlength]
        cases scan (o + cs.length + 1) u with
        | error e => rfl
        | ok us => exact congrArg Except.ok (List.append_assoc ..).symm
      rcases List.append_eq_append_iff.1 hsplit with ⟨_ | ⟨c, y⟩, hl, hu'⟩ | ⟨tail, -, htail⟩
      · exact hwhole [] hu'.symm
      · obtain rfl : '\n' = c := (List.cons.inj hu').1
        obtain ⟨_ | k, l⟩ := lx'
        · -- A row of blanks goes on over the line break, so nothing but blanks is left of the text.
          obtain rfl : l = cs ++ '\n' :: y := hl
          have hblank := Lexeme.blank_of_first? hfirst'
          have hcs := Scanner.blank_of_append hblank hne (by simp)
          rw [Lexeme.first?, hcs] at hfirst
          obtain ⟨rfl, rfl⟩ := Prod.mk.inj (Option.some.inj hfirst)
          cases htoken
          cases hscans with
          | nil => exact hline cs (Lexeme.isBlank_of_lineBreak hblank hne) o
          | next hnil => cases hnil
        · obtain rfl : l = cs ++ '\n' :: y := hl
          rcases Lexeme.first?_of_lineBreak hfirst' hne with hnone | rfl
          · rw [hnone] at hfirst
            cases hfirst
          · -- A caret at the end takes the line break with it.
            have hcaret : Lexeme.first? ['$', '\\', '^'] =
                some (⟨some .char, ['$', '\\', '^']⟩, []) := rfl
            rw [hcaret] at hfirst
            obtain ⟨rfl, rfl⟩ := Prod.mk.inj (Option.some.inj hfirst)
            obtain ⟨c, rfl, hkind, hmeaning⟩ := exists_of_token? htoken
            cases hscans with
            | nil => exact absurd ⟨hkind, (Except.ok.inj hmeaning).symm⟩ (hlast c rfl)
            | next hnil => cases hnil
      · exact hwhole tail htail

theorem Scans.append_line {us : List Token} {u : List Char} (h : Scans o cs ts)
    (hlast : ∀ t ∈ ts.getLast?, ¬ t.OpenCaret) (hu : Scans (o + cs.length + 1) u us) :
    Scans o (cs ++ '\n' :: u) (ts ++ us) := by
  rw [← scan_eq_ok, h.scan_append_line hlast, scan_eq_ok.2 hu]
  rfl

end TokenStream

/-- After a line break, lines are counted on and columns anew. -/
theorem Position.ofOffset_append_line (cs u : List Char) (k : Nat) :
    ofOffset (cs ++ '\n' :: u) (cs.length + 1 + k) =
      ⟨cs.count '\n' + 1 + (ofOffset u k).line, (ofOffset u k).column⟩ := by
  have hbefore : (cs ++ '\n' :: u).take (cs.length + 1 + k) = cs ++ '\n' :: u.take k := by
    rw [List.take_append, List.take_of_length_le (by omega),
      show cs.length + 1 + k - cs.length = k + 1 by omega, List.take_succ_cons]
  have hcolumn : (cs ++ '\n' :: u.take k).reverse.takeWhile (· != '\n') =
      (u.take k).reverse.takeWhile (· != '\n') := by
    rw [List.reverse_append, List.reverse_cons, List.append_assoc, List.takeWhile_append]
    split
    next hlength =>
      have hrow := ( List.takeWhile_prefix (· != '\n')).eq_of_length hlength
      simp [hrow]
    next => rfl
  rw [ofOffset, hbefore, hcolumn, List.count_append, List.count_cons_self]
  simp only [ofOffset, Position.mk.injEq, and_true]
  omega

/-! ## Two texts -/

/-- The tokens of two texts, the second of which follows the first on a new line. -/
def TokenStream.line (s s' : TokenStream) : TokenStream :=
  ⟨s.tokens ++ s'.tokens.map (Token.shift (s.length + 1)), s.length + 1 + s'.length⟩

/-- The report of a fault that stands a number of lines further down. -/
def ReadError.below (lines : Nat) : ReadError → ReadError
  | .malformed d => .malformed { d with line := d.line.map (lines + ·) }
  | .conversion e => .conversion e

theorem ReadError.ofLexError_append_line (file : Option String) (cs u : List Char) (e : LexError) :
    ofLexError file (cs ++ '\n' :: u) (e.shift (cs.length + 1)) =
      (ofLexError file u e).below (cs.count '\n' + 1) := by
  cases e with
  | conversion e => rfl
  | unexpected offset c =>
    simp only [LexError.shift, ofLexError, Position.ofOffset_append_line]
    simp [below, Diagnostic.located]

/-- The tokens of two texts on lines of their own are the tokens of each. If the second text has
none, then the fault in it is reported, with its line counted from the first text on. -/
theorem tokensOfText_append_line {file : Option String} {a b : String} {before : TokenStream}
    (ha : tokensOfText file a = .ok before)
    (hlast : ∀ t ∈ before.tokens.getLast?, ¬ t.OpenCaret) :
    (∀ after, tokensOfText file b = .ok after →
      tokensOfText file (a ++ "\n" ++ b) = .ok (before.line after)) ∧
    (∀ e, tokensOfText file b = .error e →
      tokensOfText file (a ++ "\n" ++ b) = .error (e.below (a.toList.count '\n' + 1))) := by
  obtain ⟨hscans, hlength⟩ := tokensOfText_eq_ok.1 ha
  have hchars : (a ++ "\n" ++ b).toList = a.toList ++ '\n' :: b.toList := by simp
  constructor
  · intro after hb
    obtain ⟨hscans', hlength'⟩ := tokensOfText_eq_ok.1 hb
    rw [tokensOfText_eq_ok, hchars]
    refine ⟨hscans.append_line hlast ?_, ?_⟩
    · rw [Nat.zero_add, hlength]
      exact hscans'.shift (a.toList.length + 1)
    · simp only [TokenStream.line, hlength, hlength', List.length_append, List.length_cons]
      omega
  · intro e hb
    rw [tokensOfText, TokenStream.ofText] at hb ⊢
    rw [hchars, hscans.scan_append_line hlast, Nat.zero_add]
    have hshift := TokenStream.scan_shift (a.toList.length + 1) 0 b.toList
    rw [Nat.add_zero] at hshift
    rw [hshift]
    cases hscan : TokenStream.scan 0 b.toList with
    | ok ts => rw [hscan] at hb; cases hb
    | error e' =>
      rw [hscan] at hb
      obtain rfl : ReadError.ofLexError file b.toList e' = e := Except.error.inj hb
      exact congrArg Except.error (ReadError.ofLexError_append_line file a.toList b.toList e')

/-- A caret with a character after it does not go on over the line break. -/
theorem tokensOfText_append_line_caret :
    tokensOfText none "$%\n$\\^b" = .ok ⟨[⟨.char, "$%", 0⟩, ⟨.char, "$\\^b", 3⟩], 7⟩ ∧
      ¬ (Token.mk .char "$\\^b" 3).OpenCaret ∧
      tokensOfText none ("$%\n$\\^b" ++ "\n" ++ " 1") =
        .ok ⟨[⟨.char, "$%", 0⟩, ⟨.char, "$\\^b", 3⟩, ⟨.integer, "1", 9⟩], 10⟩ ∧
      tokensOfText none ("$%\n$\\^b" ++ "\n" ++ " ?") =
        .error (.malformed (.located none ⟨3, 2⟩ "unexpected character '?'")) := by
  have ha : tokensOfText none "$%\n$\\^b" =
      .ok ⟨[⟨.char, "$%", 0⟩, ⟨.char, "$\\^b", 3⟩], 7⟩ := by
    have hscans : TokenStream.Scans 0 ['$', '%', '\n', '$', '\\', '^', 'b']
        [⟨.char, "$%", 0⟩, ⟨.char, "$\\^b", 3⟩] :=
      .next (t := some _) rfl rfl (.blank rfl (.next (t := some _) rfl rfl .nil))
    exact tokensOfText_eq_ok.2 ⟨hscans, rfl⟩
  have hlast : ¬ (Token.mk .char "$\\^b" 3).OpenCaret := by decide
  have hone : tokensOfText none " 1" = .ok ⟨[⟨.integer, "1", 1⟩], 2⟩ :=
    tokensOfText_eq_ok.2 ⟨.blank rfl (.next (t := some _) rfl rfl .nil), rfl⟩
  have hfault : tokensOfText none " ?" =
      .error (.malformed (.located none ⟨1, 2⟩ "unexpected character '?'")) := by
    have hscan : TokenStream.scan 0 " ?".toList = .error (.unexpected 1 '?') :=
      (TokenStream.scan_cons_of_isBlank rfl 0 ['?']).trans (TokenStream.scan_of_none rfl)
    rw [tokensOfText, TokenStream.ofText, hscan]
    rfl
  have hclosed : ∀ t ∈ [Token.mk .char "$%" 0, ⟨.char, "$\\^b", 3⟩].getLast?, ¬ t.OpenCaret := by
    simpa using hlast
  exact ⟨ha, hlast, (tokensOfText_append_line ha hclosed).1 _ hone,
    (tokensOfText_append_line ha hclosed).2 _ hfault⟩

end CallGraph
