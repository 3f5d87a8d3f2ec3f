import CallGraph.Proofs.Lexing.Lines
import CallGraph.Proofs.Parsing.Steady
import CallGraph.Proofs.RoundTrip

/-!
The text of a module has one end. A text that breaks off before the end of its last token is not
read as a module, and neither is one that more tokens follow, which are reported where they begin.
-/

namespace CallGraph

variable {file : Option String} {text : String} {m : Ann Module} {ts rest : List Token}

/-! ## The last token -/

theorem Writes.last_of_run {f : Form} {stop : String} {xs : List f.Tree}
    (h : Writes (.run f stop) ts xs rest) : ∃ us c, c.is stop ∧ ts = us ++ c :: rest := by
  induction xs generalizing ts with
  | nil =>
    cases h with
    | stop hc => exact ⟨[], _, hc, rfl⟩
  | cons x xs ih =>
    cases h with
    | go hx hxs =>
      obtain ⟨us, c, hc, rfl⟩ := ih hxs
      obtain ⟨vs, rfl⟩ := hx.suffix
      exact ⟨vs ++ us, c, hc, (List.append_assoc ..).symm⟩

theorem Writes.last_of_closing {cs : List Const} (h : Writes .closing ts cs rest) :
    ∃ us c, c.is ")" ∧ ts = us ++ c :: rest := by
  cases h with
  | closed hc => exact ⟨[], _, hc, rfl⟩
  | @annotations b o c _ _ _ hb ho hcs hc =>
    obtain ⟨us, rfl⟩ := hcs.suffix
    exact ⟨b :: o :: us, c, hc, rfl⟩

/-- A module ends with its keyword, or with the parenthesis around it. -/
theorem Writes.last_of_module (h : Writes (.annotated .module) ts m rest) :
    ∃ us c, c.Final ∧ ts = us ++ c :: rest := by
  cases h with
  | plain h =>
    cases h with
    | @module k n o a o' us mid mid' _ _ _ _ _ _ _ hexports _ _ hattributes hds =>
      obtain ⟨vs, c, hc, rfl⟩ := hds.last_of_run
      obtain ⟨as, rfl⟩ := hattributes.suffix
      obtain ⟨es, rfl⟩ := hexports.suffix
      exact ⟨k :: n :: o :: (es ++ a :: o' :: (as ++ vs)), c, .inr hc, by simp⟩
  | @parens _ o _ _ _ _ _ _ hinner hclosing =>
    obtain ⟨us, c, hc, rfl⟩ := hclosing.last_of_closing
    obtain ⟨vs, rfl⟩ := hinner.suffix
    exact ⟨o :: (vs ++ us), c, .inl hc, by simp⟩

theorem final_of_moduleOfTokens {depth : Nat} {t : Token} (h : moduleOfTokens depth ts = .ok m)
    (ht : ts.getLast? = some t) : t.Final := by
  obtain ⟨us, c, hc, rfl⟩ := (moduleOfTokens_sound h).last_of_module
  rw [List.getLast?_concat] at ht
  exact Option.some.inj ht ▸ hc

/-! ## Cut texts -/

/-- No symbol goes on from a token that ends a module. -/
theorem Token.Final.eq_of_isSymbol {t : Token} {s : String} (ht : t.Final) (hs : IsSymbol s)
    (h : t.text.toList <+: s.toList) : s = t.text := by
  have hsymbols : ∀ stop ∈ [")", "end"], ∀ s ∈ Word.marks ++ Word.keywords,
      stop.toList <+: s.toList → s = stop := by decide
  have hstop : t.text ∈ [")", "end"] := by
    simp only [Token.Final, Token.is, Bool.and_eq_true, beq_iff_eq] at ht
    simpa using ht.imp And.right And.right
  exact hsymbols t.text hstop s (List.mem_append.2 hs) h

/-- What is left of a module that lost a token is not a module. -/
theorem moduleOfTokens_cut {depth : Nat} {ts₁ ts₂ kept : List Token}
    (h : moduleOfTokens depth (ts₁ ++ ts₂) = .ok m) (hremnant : TokenStream.Remnant kept ts₂)
    (hlost : ts₂ ≠ []) (m' : Ann Module) : moduleOfTokens depth (ts₁ ++ kept) ≠ .ok m' := by
  intro hcut
  rcases List.eq_nil_or_concat kept with rfl | ⟨ks, k, rfl⟩
  · -- The tokens before the cut would be a module, and so no token could follow them.
    rcases ts₂ with _ | ⟨t, ts₂⟩
    · exact absurd rfl hlost
    · rw [List.append_nil] at hcut
      rw [moduleOfTokens_append hcut t ts₂] at h
      cases h
  · have hfinal : k.Final := final_of_moduleOfTokens hcut (by simp)
    rcases hremnant with hkept | ⟨t, u, us, hk, rfl, ht, hu, hbegin, hne⟩
    · exact hkept k (by simp) hfinal
    · -- The word would be the last keyword, and with the rest of its letters it is no keyword.
      obtain rfl : k = t := by simpa using congrArg List.getLast? hk
      have hknown : IsSymbol u.text := (usable_of_moduleOfTokens h u (by simp)).known hu
      exact hne (hfinal.eq_of_isSymbol hknown hbegin).symm

theorem Module.ofText_of_scans (h : TokenStream.Scans 0 text.toList ts) :
    Module.ofText file text =
      (moduleOfTokens nestingLimit ts).mapError (.ofParseFailure file text.toList) := by
  have htokens : tokensOfText file text = .ok ⟨ts, text.toList.length⟩ :=
    tokensOfText_eq_ok.2 ⟨h, rfl⟩
  rw [Module.ofText, readText, htokens]
  rfl

theorem Module.scans_of_ofText (h : Module.ofText file text = .ok m) :
    ∃ ts, TokenStream.Scans 0 text.toList ts ∧ moduleOfTokens nestingLimit ts = .ok m := by
  obtain ⟨stream, htokens, hparse⟩ := readText_eq_ok.1 h
  exact ⟨stream.tokens, (tokensOfText_eq_ok.1 htokens).1, hparse⟩

/-- A text that breaks off in a token is refused. It is malformed, unless the break makes a numeral
that is too long to be converted. -/
theorem Module.ofText_cut {p q : String} (h : Module.ofText file text = .ok m)
    (hcut : text = p ++ q) (hloses : TokenStream.Loses text.toList p.length) :
    (∃ d, Module.ofText file p = .error (.malformed d)) ∨
      Module.ofText file p = .error (.conversion .longNumeral) ∧
        ∃ left whole, tokensOfText file p = .ok left ∧ tokensOfText file text = .ok whole ∧
          ∃ t ∈ left.tokens, t ∉ whole.tokens ∧ ¬ t.Short numeralLimit := by
  obtain ⟨ts, hscans, hparse⟩ := Module.scans_of_ofText h
  have hchars : text.toList = p.toList ++ q.toList := by rw [hcut, String.toList_append]
  rcases hscans.cut hchars with ⟨n, c, hscan⟩ | ⟨ts₁, ts₂, kept, rfl, hscan, hremnant, hlost⟩
  · have htokens : tokensOfText file p = .error (.ofLexError file p.toList (.unexpected n c)) := by
      rw [tokensOfText, TokenStream.ofText, hscan]
      rfl
    rw [Module.ofText, readText, htokens]
    exact .inl ⟨_, rfl⟩
  · have hleft := TokenStream.scan_eq_ok.1 hscan
    rw [Module.ofText_of_scans hleft]
    cases hresult : moduleOfTokens nestingLimit (ts₁ ++ kept) with
    | ok m' => exact absurd hresult (moduleOfTokens_cut hparse hremnant (hlost hloses) m')
    | error e =>
      cases e with
      | unexpected wanted found => exact .inl ⟨_, rfl⟩
      | tooDeep => exact .inl ⟨_, rfl⟩
      | conversion e =>
        obtain ⟨rfl, t, ht, hlong⟩ := long_of_moduleOfTokens hresult
        refine .inr ⟨rfl, ⟨_, p.toList.length⟩, ⟨_, text.toList.length⟩,
          tokensOfText_eq_ok.2 ⟨hleft, rfl⟩, tokensOfText_eq_ok.2 ⟨hscans, rfl⟩, t, ht, ?_, hlong⟩
        exact fun hwhole => hlong (usable_of_moduleOfTokens hparse t hwhole).short

/-! ## Texts that go on -/

/-- Tokens on a line of their own after a module are refused where they begin. -/
theorem Module.ofText_append_line {u : String} {first : Token} {length : Nat}
    (h : Module.ofText file text = .ok m)
    (hu : tokensOfText file u = .ok ⟨first :: rest, length⟩) :
    Module.ofText file (text ++ "\n" ++ u) = .error (.malformed (.located file
      ⟨text.toList.count '\n' + 1 + (TokenStream.position u.toList (some first)).line,
        (TokenStream.position u.toList (some first)).column⟩
      ("expected end of input, found " ++ Text.quoted first.text))) := by
  obtain ⟨ts, hscans, hparse⟩ := Module.scans_of_ofText h
  have hchars : (text ++ "\n" ++ u).toList = text.toList ++ '\n' :: u.toList := by simp
  have hlast : ∀ t ∈ ts.getLast?, ¬ t.OpenCaret := by
    rintro t ht ⟨hchar, -⟩
    simpa [Token.Final, Token.is, hchar] using final_of_moduleOfTokens hparse ht
  have hshifted : TokenStream.Scans (0 + text.toList.length + 1) u.toList
      ((first :: rest).map (Token.shift (text.toList.length + 1))) := by
    rw [Nat.zero_add]
    exact (tokensOfText_eq_ok.1 hu).1.shift (text.toList.length + 1)
  have hall : TokenStream.Scans 0 (text ++ "\n" ++ u).toList
      (ts ++ (first :: rest).map (Token.shift (text.toList.length + 1))) := by
    rw [hchars]
    exact hscans.append_line hlast hshifted
  have hposition : TokenStream.position (text ++ "\n" ++ u).toList
        (some (first.shift (text.toList.length + 1))) =
      ⟨text.toList.count '\n' + 1 + (TokenStream.position u.toList (some first)).line,
        (TokenStream.position u.toList (some first)).column⟩ := by
    rw [hchars]
    exact Position.ofOffset_append_line text.toList u.toList first.offset
  rw [Module.ofText_of_scans hall, List.map_cons, moduleOfTokens_append hparse, ← hposition]
  rfl

/-! ## Breaks in a number -/

/-- The beginning of a module, up to the value of its only attribute. -/
def Module.opening : List Word := [
  ⟨.name, "module"⟩, ⟨.atom, "m"⟩, ⟨.punct, "["⟩, ⟨.punct, "]"⟩, ⟨.name, "attributes"⟩,
  ⟨.punct, "["⟩, ⟨.atom, "a"⟩, ⟨.punct, "="⟩]

/-- The end of that module. -/
def Module.ending : List Word := [⟨.punct, "]"⟩, ⟨.name, "end"⟩]

/-- The text of the module up to the point of its number. -/
def Module.uptoPoint (ds : List Char) : String :=
  String.ofList (Word.continued Module.opening ++ ' ' :: ds)

/-- The text of the module from the point of its number on. -/
def Module.fromPoint : String := String.ofList ('.' :: '5' :: Word.continued Module.ending)

theorem Module.legible_opening : ∀ w ∈ Module.opening, w.Legible := by
  simp [Module.opening, Word.Legible, Word.keywords, Word.marks]

theorem Module.legible_ending : ∀ w ∈ Module.ending, w.Legible := by
  simp [Module.ending, Word.Legible, Word.keywords, Word.marks]

theorem moduleOfTokens_of_float (s : String) (o n : Nat) :
    ∃ m, moduleOfTokens nestingLimit
      (Word.place 1 Module.opening ++ ⟨.float, s, o⟩ :: Word.place n Module.ending) = .ok m :=
  ⟨_, rfl⟩

namespace Level

open CallGraph.Parser

theorem annotated_eq_error {α : Type} {bare : Parser α} {e : ParseFailure}
    (h : startsWith "(" ts = false) (hbare : bare ts = .error e) (l : Level)
    (inner : Parser (Ann α)) : l.annotated inner bare ts = .error e := by
  rw [annotated, onSymbol_single, h]
  change Except.bind (bare ts) _ = _
  rw [hbare]
  rfl

theorem unit_of_long {l : Level} {s : String} (h : l.digits < (Numeral.sign s.toList).2.length)
    (o : Nat) :
    l.next.next.unit (Word.place 1 Module.opening ++ [⟨.integer, s, o⟩]) =
      .error (.conversion .longNumeral) := by
  have hliteral : literal? l.digits [⟨.integer, s, o⟩] = .error (.conversion .longNumeral) := by
    simp [literal?, Token.literal?, Numeral.integer, h, Except.map]
  have hconst : l.next.const [⟨.integer, s, o⟩] = .error (.conversion .longNumeral) :=
    annotated_eq_error rfl (bind_eq_error.2 (.inl hliteral)) l l.const
  have hpair (a b : Nat) :
      l.next.attributePair [⟨.atom, "a", a⟩, ⟨.punct, "=", b⟩, ⟨.integer, s, o⟩] =
        .error (.conversion .longNumeral) := by
    rw [attributePair, bind_of_ok (x := ⟨"a", []⟩) rfl, bind_of_ok (x := ()) rfl]
    exact bind_eq_error.2 (.inl (bind_eq_error.2 (.inl hconst)))
  have hbare : l.next.bareModule (Word.place 1 Module.opening ++ [⟨.integer, s, o⟩]) =
      .error (.conversion .longNumeral) := by
    -- Everything before the attribute is read.
    rw [bareModule, bind_of_ok (x := ()) rfl, bind_of_ok (x := "m") rfl, bind_of_ok (x := ()) rfl,
      bind_of_ok (x := []) rfl, bind_of_ok (x := ()) rfl, bind_of_ok (x := ()) rfl]
    exact bind_eq_error.2 (.inl (bind_eq_error.2 (.inl (bind_eq_error.2 (.inl (hpair _ _))))))
  exact annotated_eq_error rfl hbare l.next l.next.unit

end Level

theorem moduleOfTokens_of_long {s : String}
    (h : numeralLimit < (Numeral.sign s.toList).2.length) (o : Nat) :
    moduleOfTokens nestingLimit (Word.place 1 Module.opening ++ [⟨.integer, s, o⟩]) =
      .error (.conversion .longNumeral) := by
  have hlevel : Level.ofDepth numeralLimit nestingLimit =
      (Level.ofDepth numeralLimit 998).next.next := rfl
  have hunit := Level.unit_of_long (l := Level.ofDepth numeralLimit 998)
    (by rwa [Level.digits_ofDepth]) o
  rw [moduleOfTokens, hlevel, Parser.whole, hunit]

section

variable {ds : List Char} (hds : ∀ c ∈ ds, c.isDigit = true) (hne : ds ≠ [])

include hds hne

theorem Module.scans_uptoPoint :
    ∃ o, TokenStream.Scans 0 (Module.uptoPoint ds).toList
      (Word.place 1 Module.opening ++ [⟨.integer, String.ofList ds, o⟩]) := by
  have hapart : Apart [] := trivial
  have hfirst : Lexeme.first? ds = some (⟨some .integer, ds⟩, []) := by
    simpa using Lexeme.first?_of_digits hds hne hapart
  rw [Module.uptoPoint, String.toList_ofList]
  exact ⟨_, .continued Module.legible_opening rfl (.blank rfl (.next hfirst rfl .nil))⟩

theorem Module.scans_fromPoint :
    ∃ o n, (Module.uptoPoint ds).length ≤ n ∧
      TokenStream.Scans 0 (Module.uptoPoint ds ++ Module.fromPoint).toList
        (Word.place 1 Module.opening ++
          ⟨.float, String.ofList (ds ++ ['.', '5']), o⟩ :: Word.place n Module.ending) := by
  have hfirst : Lexeme.first? (ds ++ '.' :: (['5'] ++ Word.continued Module.ending)) =
      some (⟨some .float, ds ++ ['.', '5']⟩, Word.continued Module.ending) :=
    Lexeme.first?_of_decimal hds hne (by simp) (by simp) rfl
  have hending (o : Nat) : TokenStream.Scans o (Word.continued Module.ending)
      (Word.place (o + 1) Module.ending) := by
    rw [← TokenStream.scan_eq_ok, Word.scan_continued Module.legible_ending]
  have hnumber (o : Nat) : TokenStream.Scans o
      (' ' :: (ds ++ '.' :: (['5'] ++ Word.continued Module.ending)))
      (⟨.float, String.ofList (ds ++ ['.', '5']), o + 1⟩ ::
        Word.place (o + 1 + (ds ++ ['.', '5']).length + 1) Module.ending) :=
    .blank rfl (.next hfirst rfl (hending _))
  have hchars : (Module.uptoPoint ds ++ Module.fromPoint).toList = Word.continued Module.opening ++
      ' ' :: (ds ++ '.' :: (['5'] ++ Word.continued Module.ending)) := by
    simp [Module.uptoPoint, Module.fromPoint]
  rw [hchars]
  refine ⟨_, _, ?_, .continued Module.legible_opening rfl (hnumber _)⟩
  simp only [Module.uptoPoint, String.length_ofList, List.length_append, List.length_cons]
  omega

/-- The text is that of a module, and the break before the point takes tokens from it. -/
theorem Module.ofText_fromPoint :
    (∃ m, Module.ofText none (Module.uptoPoint ds ++ Module.fromPoint) = .ok m) ∧
      TokenStream.Loses (Module.uptoPoint ds ++ Module.fromPoint).toList
        (Module.uptoPoint ds).length := by
  obtain ⟨o, n, hn, hscans⟩ := Module.scans_fromPoint hds hne
  obtain ⟨m, hm⟩ := moduleOfTokens_of_float (String.ofList (ds ++ ['.', '5'])) o n
  constructor
  · rw [Module.ofText_of_scans hscans, hm]
    exact ⟨m, rfl⟩
  · refine hscans.loses (t := ⟨.punct, "]", n⟩) ?_ (by simpa using hn)
    simp [Module.ending, Word.place]

end

/-! ## The end of a module -/

/-- The text of a module has one end. If it breaks off before the end of a token, it is malformed or
the break makes a numeral that is too long to be converted. If more tokens follow on a new line, it
is malformed at the first one of them. -/
theorem Module.ofText_has_one_end (h : Module.ofText file text = .ok m) :
    (∀ p q : String, text = p ++ q → TokenStream.Loses text.toList p.length →
      (∃ d, Module.ofText file p = .error (.malformed d)) ∨
        Module.ofText file p = .error (.conversion .longNumeral) ∧
          ∃ left whole, tokensOfText file p = .ok left ∧ tokensOfText file text = .ok whole ∧
            ∃ t ∈ left.tokens, t ∉ whole.tokens ∧ ¬ t.Short numeralLimit) ∧
    ∀ (u : String) (first : Token) (rest : List Token) (length : Nat),
      tokensOfText file u = .ok ⟨first :: rest, length⟩ →
      Module.ofText file (text ++ "\n" ++ u) = .error (.malformed (.located file
        ⟨text.toList.count '\n' + 1 + (TokenStream.position u.toList (some first)).line,
          (TokenStream.position u.toList (some first)).column⟩
        ("expected end of input, found " ++ Text.quoted first.text))) :=
  ⟨fun _ _ hcut hloses => Module.ofText_cut h hcut hloses,
    fun _ _ _ _ hu => Module.ofText_append_line h hu⟩

/-- What is left of this number is a number too. -/
theorem Module.ofText_has_one_end_decimal :
    let p := Module.uptoPoint ['1']
    let text := p ++ Module.fromPoint
    (∃ m, Module.ofText none text = .ok m) ∧ TokenStream.Loses text.toList p.length ∧
      (∃ d, Module.ofText none p = .error (.malformed d)) ∧
      tokensOfText none " end" = .ok ⟨[⟨.name, "end", 1⟩], 4⟩ ∧
      Module.ofText none (text ++ "\n" ++ " end") =
        .error (.malformed (.located none ⟨2, 2⟩ "expected end of input, found 'end'")) := by
  intro p text
  have hds : ∀ c ∈ ['1'], c.isDigit = true := by simp
  obtain ⟨⟨m, hm⟩, hloses⟩ := Module.ofText_fromPoint hds (by simp)
  obtain ⟨o, hscans⟩ := Module.scans_uptoPoint hds (by simp)
  have htokens : tokensOfText none " end" = .ok ⟨[⟨.name, "end", 1⟩], 4⟩ := by
    have hlegible : ∀ w ∈ [Word.mk .name "end"], w.Legible := by simp [Word.Legible, Word.keywords]
    exact tokensOfText_eq_ok.2 ⟨TokenStream.scan_eq_ok.1 (Word.scan_continued hlegible 0), rfl⟩
  obtain ⟨hcut, hmore⟩ := Module.ofText_has_one_end hm
  refine ⟨⟨m, hm⟩, hloses, ?_, htokens, ?_⟩
  · rcases hcut p Module.fromPoint rfl hloses with hd | ⟨-, left, -, hleft, -, t, ht, -, hlong⟩
    · exact hd
    · have heq := (TokenStream.scan_eq_ok.2 (tokensOfText_eq_ok.1 hleft).1).symm.trans
        (TokenStream.scan_eq_ok.2 hscans)
      rw [Except.ok.inj heq] at ht
      rcases List.mem_append.1 ht with ht | ht
      · exact absurd (Word.short_of_mem_place Module.legible_opening ht) hlong
      · obtain rfl := List.mem_singleton.1 ht
        have hlength : (Numeral.sign (String.ofList ['1']).toList).2.length ≤ numeralLimit := by
          decide
        exact (hlong fun _ => hlength).elim
  · rw [hmore " end" ⟨.name, "end", 1⟩ [] 4 htokens]
    rfl

/-- A break can leave a numeral that is too long, and then the text is not malformed. -/
theorem Module.ofText_break_in_decimal :
    let p := Module.uptoPoint (List.replicate (numeralLimit + 1) '1')
    (∃ m, Module.ofText none (p ++ Module.fromPoint) = .ok m) ∧
      TokenStream.Loses (p ++ Module.fromPoint).toList p.length ∧
      ¬ ∃ d, Module.ofText none p = .error (.malformed d) := by
  have hds : ∀ c ∈ List.replicate (numeralLimit + 1) '1', c.isDigit = true := by
    intro c hc
    rw [List.eq_of_mem_replicate hc]
    rfl
  have hne : List.replicate (numeralLimit + 1) '1' ≠ [] := by simp
  obtain ⟨hok, hloses⟩ := Module.ofText_fromPoint hds hne
  refine ⟨hok, hloses, ?_⟩
  rintro ⟨d, hd⟩
  obtain ⟨o, hscans⟩ := Module.scans_uptoPoint hds hne
  have hlong : numeralLimit <
      (Numeral.sign (String.ofList (List.replicate (numeralLimit + 1) '1')).toList).2.length := by
    rw [String.toList_ofList, List.replicate_succ, Numeral.sign]
    · simp
    all_goals simp
  rw [Module.ofText_of_scans hscans, moduleOfTokens_of_long hlong] at hd
  cases hd

end CallGraph
