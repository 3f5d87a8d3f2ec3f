import CallGraph.Proofs.Lexing.Languages
import CallGraph.Proofs.Lexing.Texts

/-!
Escapes in characters and between quotation marks. Main statements: a quoted text stands for the
characters that are spelled in it, whichever way each of them is spelled; what is decoded as one
escape is part of one lexeme, but for a pair of digits in a character and for a caret before a
quotation mark or a backslash.
-/

namespace CallGraph

open Text Computability

/-! ## Numbers in digits -/

namespace Text

/-- The digits denote the number in the base. A digit above nine is a letter of either case. -/
inductive Denotes (base : Nat) : List Char → Nat → Prop
  | nil : Denotes base [] 0
  | snoc {ds : List Char} {n v : Nat} {c : Char} : Denotes base ds n → v < base →
      c = v.digitChar ∨ c = v.digitChar.toUpper → Denotes base (ds ++ [c]) (base * n + v)

variable {base n v : Nat} {ds : List Char} {c : Char}

theorem hexValue?_digitChar (hv : v < 16) (hc : c = v.digitChar ∨ c = v.digitChar.toUpper) :
    hexValue? c = some v := by
  have h : ∀ v < 16, hexValue? v.digitChar = some v ∧ hexValue? v.digitChar.toUpper = some v := by
    decide
  rcases hc with rfl | rfl
  · exact (h v hv).1
  · exact (h v hv).2

theorem isOctal_digitChar (hv : v < 8) (hc : c = v.digitChar ∨ c = v.digitChar.toUpper) :
    isOctal c = true := by
  have h : ∀ v < 8, isOctal v.digitChar = true ∧ isOctal v.digitChar.toUpper = true := by decide
  rcases hc with rfl | rfl
  · exact (h v hv).1
  · exact (h v hv).2

theorem Denotes.isOctal (h : Denotes 8 ds n) : ∀ d ∈ ds, isOctal d = true := by
  induction h with
  | nil => simp
  | snoc _ hv hc ih =>
    refine List.forall_mem_append.2 ⟨ih, ?_⟩
    simpa using isOctal_digitChar hv hc

theorem Denotes.isHex (h : Denotes 16 ds n) : ∀ d ∈ ds, isHex d = true := by
  induction h with
  | nil => simp
  | snoc _ hv hc ih =>
    refine List.forall_mem_append.2 ⟨ih, ?_⟩
    simp [Text.isHex, hexValue?_digitChar hv hc]

theorem Denotes.numberInBase_eq (h : Denotes base ds n) (hbase : base ≤ 16) :
    numberInBase base ds = n := by
  induction h with
  | nil => rfl
  | snoc _ hv hc ih =>
    rw [numberInBase] at ih
    rw [numberInBase, List.foldl_append, ih, List.foldl_cons, List.foldl_nil,
      hexValue?_digitChar (Nat.lt_of_lt_of_le hv hbase) hc]
    rfl

theorem hexValue_le (c : Char) : (hexValue? c).getD 0 ≤ 15 := by
  have hchars (a b : Char) : a ≤ b ↔ a.toNat ≤ b.toNat := Iff.rfl
  unfold hexValue?
  simp only [Bool.and_eq_true, decide_eq_true_eq, hchars]
  split
  · simp only [Option.getD_some, Char.reduceToNat] at *
    omega
  · split
    · simp only [Option.getD_some, Char.reduceToNat] at *
      omega
    · split
      · simp only [Option.getD_some, Char.reduceToNat] at *
        omega
      · exact Nat.zero_le 15

/-- Three digits are not enough for a code that no character has. -/
theorem numberInBase_le (hbase : base ≤ 16) (hlength : ds.length ≤ 3) :
    numberInBase base ds ≤ 0x10FFFF := by
  have hstep (n : Nat) (c : Char) : base * n + (hexValue? c).getD 0 ≤ 16 * n + 15 :=
    Nat.add_le_add (Nat.mul_le_mul_right n hbase) (hexValue_le c)
  rcases ds with _ | ⟨a, _ | ⟨b, _ | ⟨c, _ | ⟨d, ds⟩⟩⟩⟩
  · exact Nat.zero_le _
  · have ha := hstep 0 a
    simp only [numberInBase, List.foldl_cons, List.foldl_nil]
    omega
  · have ha := hstep 0 a
    have hb := hstep (base * 0 + (hexValue? a).getD 0) b
    simp only [numberInBase, List.foldl_cons, List.foldl_nil]
    omega
  · have ha := hstep 0 a
    have hb := hstep (base * 0 + (hexValue? a).getD 0) b
    have hc := hstep (base * (base * 0 + (hexValue? a).getD 0) + (hexValue? b).getD 0) c
    simp only [numberInBase, List.foldl_cons, List.foldl_nil]
    omega
  · simp only [List.length_cons] at hlength
    omega

end Text

theorem charOfCode_toNat (c : Char) : charOfCode c.toNat = .ok c := by
  have hvalid : c.toNat < 0xD800 ∨ 0xDFFF < c.toNat ∧ c.toNat < 0x110000 := c.valid
  have hsurrogate : (decide (0xD800 ≤ c.toNat) && decide (c.toNat ≤ 0xDFFF)) = false := by
    rw [Bool.and_eq_false_iff, decide_eq_false_iff_not, decide_eq_false_iff_not]
    omega
  rw [charOfCode, if_pos (by omega), hsurrogate]
  simp

theorem exists_charOfCode {n : Nat} (h : n ≤ 0x10FFFF) : ∃ c, charOfCode n = .ok c := by
  rw [charOfCode, if_pos h]
  exact ⟨_, rfl⟩

/-! ## Quoted texts -/

/-- The kind of the tokens between two marks. -/
inductive Quotes : Char → Kind → Prop
  | atom : Quotes '\'' .atom
  | string : Quotes '"' .string

namespace Quotes

variable {mark : Char} {k : Kind} {l : List Char}

theorem eq_or (hq : Quotes mark k) : mark = '\'' ∨ mark = '"' := by
  cases hq with
  | atom => exact .inl rfl
  | string => exact .inr rfl

theorem ne_backslash (hq : Quotes mark k) : mark ≠ '\\' := by
  rcases hq.eq_or with rfl | rfl <;> decide

/-- What may stand inside and the marks around it are one lexeme. -/
theorem first?_eq (hq : Quotes mark k) (h : l ∈ Lexeme.inside mark) (rest : List Char) :
    Lexeme.first? (mark :: l ++ mark :: rest) = some (⟨some k, mark :: l ++ [mark]⟩, rest) := by
  have hbetween : Scanner.between mark (mark :: l ++ mark :: rest) =
      some (mark :: l ++ [mark], rest) := by
    rw [List.cons_append, Scanner.between, if_pos BEq.rfl,
      Scanner.untilMark_of_mem_inside hq.ne_backslash h]
    rfl
  cases hq with
  | atom => exact Lexeme.first?_of_ofKind rfl (by simp [Lexeme.kinds]) hbetween
  | string =>
    refine Lexeme.first?_of_ofKind rfl (fun k' hk' => ?_) hbetween
    obtain rfl : k' = .atom := by simpa [Lexeme.kinds] using hk'
    rfl

theorem token?_eq (hq : Quotes mark k) (l : List Char) (o : Nat) :
    (Lexeme.mk (some k) (mark :: l ++ [mark])).token? o =
      (unescape l).map fun cs => some ⟨k, String.ofList cs, o⟩ := by
  have hinner : ((mark :: l ++ [mark]).drop 1).dropLast = l := List.dropLast_concat
  cases hq with
  | atom | string =>
    simp only [Lexeme.token?, Lexeme.meaning, hinner]
    cases unescape l <;> rfl

/-- A quoted text is one token, if what it means has a value. -/
theorem tokensOfText_eq (hq : Quotes mark k) (h : l ∈ Lexeme.inside mark) (file : Option String) :
    tokensOfText file (String.ofList (mark :: l ++ [mark])) =
      ((unescape l).map fun cs => ⟨[⟨k, String.ofList cs, 0⟩], l.length + 2⟩).mapError
        .conversion := by
  have hfirst := hq.first?_eq h []
  have htoken := hq.token?_eq l 0
  rw [tokensOfText, TokenStream.ofText, String.toList_ofList]
  cases hmeaning : unescape l with
  | error e =>
    rw [hmeaning] at htoken
    rw [TokenStream.scan_of_error hfirst htoken]
    rfl
  | ok cs =>
    rw [hmeaning] at htoken
    rw [TokenStream.scan_of_first? hfirst htoken, TokenStream.scan_nil]
    simp [Except.map, Except.mapError, bind, Except.bind, pure, Except.pure]

end Quotes

/-! ## Escapes before any text -/

namespace Escape

variable {ds : List Char}

theorem read?_octal (hds : ∀ d ∈ ds, isOctal d = true) (hlength : ds.length = 3)
    (rest : List Char) : read? (ds ++ rest) = some (.octal ds, rest) := by
  have hrun : octalRun (ds ++ rest) = ds := by
    rw [octalRun, List.take_append_of_le_length (Nat.le_of_eq hlength.symm),
      List.take_of_length_le (Nat.le_of_eq hlength)]
    rw [← List.append_nil ds, List.takeWhile_append_of_pos hds, List.takeWhile_nil]
  cases ds with
  | nil => cases hlength
  | cons d ds =>
    rw [read?, hrun]
    simp

theorem read?_braced (hds : ∀ d ∈ ds, isHex d = true) (hne : ds ≠ []) (rest : List Char) :
    read? ('x' :: '{' :: ds ++ '}' :: rest) = some (.braced ds, rest) := by
  change some (readBraced (ds ++ '}' :: rest)) = _
  rw [Scanner.readBraced_of_digits hds hne]

theorem read?_pair {a b : Char} (ha : isHex a = true) (hb : isHex b = true) (rest : List Char) :
    read? ('x' :: a :: b :: rest) = some (.pair a b, rest) := by
  have hbrace : a ≠ '{' := by
    rintro rfl
    cases ha
  change readOther? ('x' :: a :: b :: rest) = _
  simp [readOther?, ha, hb]

end Escape

theorem unescape_of_value {cs rest : List Char} {e : Escape} {c : Char}
    (hread : Escape.read? cs = some (e, rest)) (hvalue : e.value = .ok c) :
    unescape ('\\' :: cs) = (unescape rest).map (c :: ·) := by
  rw [unescape_of_read? hread, hvalue]
  cases unescape rest <;> rfl

theorem unescape_cons {c : Char} (hc : c ≠ '\\') (cs : List Char) :
    unescape (c :: cs) = (unescape cs).map (c :: ·) := by
  rw [unescape, if_neg (by simpa using hc)]
  cases unescape cs <;> rfl

/-! ## Spelled characters -/

/-- The letters that stand for a character after a backslash, and the codes of these characters. -/
def namedCodes : List (Char × Nat) := [
  ('b', 8), ('d', 127), ('e', 27), ('f', 12), ('n', 10), ('r', 13), ('s', 32), ('t', 9), ('v', 11)]

theorem Escape.read?_of_mem_namedCodes {letter : Char} {n : Nat} (h : (letter, n) ∈ namedCodes)
    (rest : List Char) :
    read? (letter :: rest) = some (.single letter, rest) ∧ (named letter).toNat = n := by
  simp only [namedCodes, List.mem_cons, List.not_mem_nil, or_false, Prod.mk.injEq] at h
  rcases h with ⟨rfl, rfl⟩ | ⟨rfl, rfl⟩ | ⟨rfl, rfl⟩ | ⟨rfl, rfl⟩ | ⟨rfl, rfl⟩ | ⟨rfl, rfl⟩ |
    ⟨rfl, rfl⟩ | ⟨rfl, rfl⟩ | ⟨rfl, rfl⟩ <;> exact ⟨rfl, rfl⟩

/-- The ways to spell a character between two marks. -/
inductive Spells (mark : Char) : Char → List Char → Prop
  | plain {c : Char} : c ≠ mark → c ≠ '\\' → Spells mark c [c]
  | mark : Spells mark mark ['\\', mark]
  | backslash : Spells mark '\\' ['\\', '\\']
  | named {c letter : Char} : (letter, c.toNat) ∈ namedCodes → Spells mark c ['\\', letter]
  | octal {c : Char} {ds : List Char} : Denotes 8 ds c.toNat → ds.length = 3 →
      Spells mark c ('\\' :: ds)
  | pair {c : Char} {ds : List Char} : Denotes 16 ds c.toNat → ds.length = 2 →
      Spells mark c ('\\' :: 'x' :: ds)
  | braced {c : Char} {ds : List Char} : Denotes 16 ds c.toNat → ds ≠ [] →
      Spells mark c ('\\' :: 'x' :: '{' :: ds ++ ['}'])
  | control {i : Nat} : i < 26 →
      Spells mark (Char.ofNat (1 + i)) ['\\', '^', Char.ofNat ('A'.toNat + i)]

namespace Lexeme

variable {mark d : Char} {ds : List Char} {p : Char → Bool}

theorem mem_inside_of_plain {c : Char} (hmark : c ≠ mark) (hback : c ≠ '\\') :
    [c] ∈ inside mark := by
  refine append_mem_kstar (s := [c]) (.inl ⟨c, ?_, rfl⟩) (Language.nil_mem_kstar _)
  simp [hmark, hback]

/-- Only the character after the backslash may be a mark or another backslash. -/
theorem mem_inside_of_escape (h : ∀ c ∈ ds, c ≠ mark ∧ c ≠ '\\') :
    '\\' :: d :: ds ∈ inside mark := by
  have hback : ['\\', d] ∈ only '\\' * anyChar :=
    Language.append_mem_mul (mem_only.2 rfl) (mem_anyChar.2 ⟨d, rfl⟩)
  refine append_mem_kstar (s := ['\\', d]) (.inr hback) ?_
  induction ds with
  | nil => exact Language.nil_mem_kstar _
  | cons c ds ih =>
    obtain ⟨⟨hmark, hback⟩, hds⟩ := List.forall_mem_cons.1 h
    exact append_mem_kstar (s := [c]) (.inl ⟨c, by simp [hmark, hback], rfl⟩) (ih hds)

end Lexeme

namespace Quotes

variable {mark c : Char} {k : Kind} {s : List Char} {p : Char → Bool}

/-- Neither a mark nor a backslash is a digit. -/
theorem ne_of_class (hq : Quotes mark k) (hp : ['\'', '"', '\\'].any p = false) (hc : p c = true) :
    c ≠ mark ∧ c ≠ '\\' := by
  have hnot (d : Char) (hd : d ∈ ['\'', '"', '\\']) : c ≠ d := by
    rintro rfl
    exact List.any_eq_false.1 hp c hd hc
  exact ⟨hnot mark (by rcases hq.eq_or with rfl | rfl <;> simp), hnot '\\' (by simp)⟩

theorem ne_of_isHex (hq : Quotes mark k) (hc : isHex c = true) : c ≠ mark ∧ c ≠ '\\' :=
  hq.ne_of_class (by decide) hc

theorem ne_of_isOctal (hq : Quotes mark k) (hc : isOctal c = true) : c ≠ mark ∧ c ≠ '\\' :=
  hq.ne_of_class (by decide) hc

theorem braced_mem_inside (hq : Quotes mark k) {ds : List Char} (hds : ∀ d ∈ ds, isHex d = true) :
    '\\' :: 'x' :: '{' :: ds ++ ['}'] ∈ Lexeme.inside mark := by
  refine Lexeme.mem_inside_of_escape (List.forall_mem_cons.2 ⟨?_, ?_⟩)
  · exact hq.ne_of_class (p := (· == '{')) (by decide) rfl
  refine List.forall_mem_append.2 ⟨fun c hc => hq.ne_of_isHex (hds c hc), ?_⟩
  simpa using hq.ne_of_class (c := '}') (p := (· == '}')) (by decide) rfl

end Quotes

namespace Spells

variable {mark c : Char} {k : Kind} {s : List Char}

/-- No spelling ends a quoted text. -/
theorem mem_inside (h : Spells mark c s) (hq : Quotes mark k) : s ∈ Lexeme.inside mark := by
  cases h with
  | plain hmark hback => exact Lexeme.mem_inside_of_plain hmark hback
  | mark | backslash | named => exact Lexeme.mem_inside_of_escape (by simp)
  | @octal _ ds hds hlength =>
    cases ds with
    | nil => cases hlength
    | cons d ds =>
      obtain ⟨-, htail⟩ := List.forall_mem_cons.1 hds.isOctal
      exact Lexeme.mem_inside_of_escape fun c hc => hq.ne_of_isOctal (htail c hc)
  | pair hds => exact Lexeme.mem_inside_of_escape fun c hc => hq.ne_of_isHex (hds.isHex c hc)
  | braced hds => exact hq.braced_mem_inside hds.isHex
  | @control i hi =>
    refine Lexeme.mem_inside_of_escape ?_
    have hletter : ∀ i < 26, (Char.ofNat ('A'.toNat + i)).isUpper = true := by decide
    simpa using hq.ne_of_class (p := Char.isUpper) (by decide) (hletter i hi)

/-- A spelling means its character, whatever follows. -/
theorem unescape_append (h : Spells mark c s) (hq : Quotes mark k) (rest : List Char) :
    unescape (s ++ rest) = (unescape rest).map (c :: ·) := by
  cases h with
  | plain _ hback => exact unescape_cons hback rest
  | mark =>
    rcases hq.eq_or with rfl | rfl <;> exact unescape_of_value (Escape.read?_mark (by simp) rest) rfl
  | backslash => exact unescape_of_value (Escape.read?_mark (by simp) rest) rfl
  | named hletter =>
    obtain ⟨hread, hcode⟩ := Escape.read?_of_mem_namedCodes hletter rest
    exact unescape_of_value hread (congrArg Except.ok (Char.toNat_inj.1 hcode))
  | octal hds hlength =>
    refine unescape_of_value (Escape.read?_octal hds.isOctal hlength rest) ?_
    rw [Escape.value, hds.numberInBase_eq (by decide), charOfCode_toNat]
  | @pair _ ds hds hlength =>
    obtain ⟨a, b, rfl⟩ := List.length_eq_two.1 hlength
    have hhex := hds.isHex
    refine unescape_of_value (Escape.read?_pair (hhex a (by simp)) (hhex b (by simp)) rest) ?_
    rw [Escape.value, hds.numberInBase_eq (by decide), charOfCode_toNat]
  | braced hds hne =>
    have hread := Escape.read?_braced hds.isHex hne rest
    rw [List.append_assoc]
    refine unescape_of_value hread ?_
    rw [Escape.value, hds.numberInBase_eq (by decide), charOfCode_toNat]
  | @control i hi =>
    have hcode : ∀ i < 26, (Char.ofNat ('A'.toNat + i)).toNat % 32 = 1 + i := by decide
    refine unescape_of_value (e := .control (Char.ofNat ('A'.toNat + i))) rfl ?_
    rw [Escape.value, hcode i hi]

/-- Spellings in a row mean their characters. -/
theorem unescape_flatten {cs : List Char} {pieces : List (List Char)}
    (h : List.Forall₂ (Spells mark) cs pieces) (hq : Quotes mark k) :
    unescape pieces.flatten = .ok cs := by
  induction h with
  | nil => rw [List.flatten_nil, unescape]
  | cons hc _ ih =>
    rw [List.flatten_cons, hc.unescape_append hq, ih]
    rfl

theorem flatten_mem_inside {cs : List Char} {pieces : List (List Char)}
    (h : List.Forall₂ (Spells mark) cs pieces) (hq : Quotes mark k) :
    pieces.flatten ∈ Lexeme.inside mark := by
  have hpieces : ∀ s ∈ pieces, s ∈ Lexeme.inside mark := by
    induction h with
    | nil => simp
    | cons hc _ ih => exact List.forall_mem_cons.2 ⟨hc.mem_inside hq, ih⟩
  rw [Lexeme.inside, ← kstar_idem]
  exact Language.join_mem_kstar hpieces

end Spells

/-- A quoted text is one token. It stands for the characters that are spelled between the marks,
whichever way each of them is spelled. -/
theorem quoted_text_of_spellings {mark : Char} {k : Kind} {s : String} {pieces : List (List Char)}
    (hq : Quotes mark k) (h : List.Forall₂ (Spells mark) s.toList pieces) (file : Option String) :
    tokensOfText file (String.ofList (mark :: pieces.flatten ++ [mark])) =
      .ok ⟨[⟨k, s, 0⟩], pieces.flatten.length + 2⟩ := by
  rw [hq.tokensOfText_eq (Spells.flatten_mem_inside h hq), Spells.unescape_flatten h hq]
  simp [Except.map, Except.mapError]

/-- The digits after the octal escape and after the control belong to neither. -/
theorem quoted_text_of_spellings_mixed :
    tokensOfText none "'\\1011\\^G7\\'\\x\x7b00e9\x7d\\x4A\"'" =
      .ok ⟨[⟨.atom, "A1\x077'éJ\"", 0⟩], 26⟩ := by
  have hoctal : Denotes 8 ['1', '0', '1'] 'A'.toNat :=
    ((Denotes.nil.snoc (v := 1) (by decide) (.inl rfl)).snoc (v := 0) (by decide) (.inl rfl)).snoc
      (v := 1) (by decide) (.inl rfl)
  have hbraced : Denotes 16 ['0', '0', 'e', '9'] 'é'.toNat :=
    (((Denotes.nil.snoc (v := 0) (by decide) (.inl rfl)).snoc (v := 0) (by decide) (.inl rfl)).snoc
      (v := 14) (by decide) (.inl rfl)).snoc (v := 9) (by decide) (.inl rfl)
  have hpair : Denotes 16 ['4', 'A'] 'J'.toNat :=
    (Denotes.nil.snoc (v := 4) (by decide) (.inl rfl)).snoc (v := 10) (by decide) (.inr rfl)
  have h : List.Forall₂ (Spells '\'')
      (String.ofList ['A', '1', '\x07', '7', '\'', 'é', 'J', '"']).toList
      [['\\', '1', '0', '1'], ['1'], ['\\', '^', 'G'], ['7'], ['\\', '\''],
        ['\\', 'x', '{', '0', '0', 'e', '9', '}'], ['\\', 'x', '4', 'A'], ['"']] := by
    rw [String.toList_ofList]
    exact .cons (.octal hoctal rfl) (.cons (.plain (by decide) (by decide))
      (.cons (.control (i := 6) (by decide)) (.cons (.plain (by decide) (by decide))
        (.cons .mark (.cons (.braced hbraced (by decide)) (.cons (.pair hpair rfl)
          (.cons (.plain (by decide) (by decide)) .nil)))))))
  exact quoted_text_of_spellings .atom h none

/-! ## Whole escapes -/

theorem Scanner.Munches.whole {scan : Scanner} {L : Language Char} {s : List Char}
    (h : Munches scan L) (hsplits : Splits scan) (hs : s ∈ L) : scan s = some (s, []) := by
  obtain ⟨l, rest, hl, hlength⟩ := h.reaches hs []
  rw [List.append_nil] at hl
  obtain ⟨rfl, -⟩ := hsplits _ _ _ hl
  have hrest : rest = [] := by
    rw [List.length_append] at hlength
    exact List.eq_nil_of_length_eq_zero (by omega)
  rw [hl, hrest, List.append_nil]

namespace Lexeme

variable {es : List Char}

/-- Two hexadecimal digits without braces. -/
def pairText : Language Char := only 'x' * oneOf isHex * oneOf isHex

/-- What is decoded as one escape, without the backslash. -/
def decodedText : Language Char := escapeText + pairText

theorem mem_pairText :
    es ∈ pairText ↔ ∃ a b, isHex a = true ∧ isHex b = true ∧ es = ['x', a, b] := by
  simp only [pairText, Language.mem_mul, mem_only, mem_oneOf]
  constructor
  · rintro ⟨_, ⟨_, rfl, _, ⟨a, ha, rfl⟩, rfl⟩, _, ⟨b, hb, rfl⟩, rfl⟩
    exact ⟨a, b, ha, hb, rfl⟩
  · rintro ⟨a, b, ha, hb, rfl⟩
    exact ⟨_, ⟨_, rfl, _, ⟨a, ha, rfl⟩, rfl⟩, _, ⟨b, hb, rfl⟩, rfl⟩

theorem not_mem_pairText (h : es ∈ escapeText) : es ∉ pairText := by
  rw [mem_pairText]
  rintro ⟨a, b, ha, -, rfl⟩
  rcases mem_escapeText.1 h with hoctal | ⟨ds, -, -, heq⟩ | ⟨c, heq⟩ | ⟨c, heq⟩
  · cases (mem_octalText.1 hoctal).2.2 'x' (by simp)
  · obtain rfl : a = '{' := (List.cons.inj (List.cons.inj heq).2).1
    cases ha
  · simp at heq
  · simp at heq

end Lexeme

namespace Escape

open Lexeme

variable {es : List Char} {e : Escape}

theorem exists_read? (h : es ∈ decodedText) : ∃ e, read? es = some (e, []) := by
  rcases h with hescape | hpair
  · have hchar := Scanner.munches_charEscape.whole Scanner.splits_charEscape hescape
    unfold Scanner.charEscape at hchar
    split at hchar
    · simp at hchar
    next e rest _ hread =>
      obtain ⟨-, rfl⟩ := Prod.mk.inj (Option.some.inj hchar)
      exact ⟨e, hread⟩
    · cases hchar
  · obtain ⟨a, b, ha, hb, rfl⟩ := mem_pairText.1 hpair
    exact ⟨_, read?_pair ha hb []⟩

theorem length_le_of_octal {ds rest : List Char} (h : read? es = some (.octal ds, rest)) :
    ds.length ≤ 3 := by
  unfold read? at h
  split at h
  next =>
    unfold readOther? readBraced at h
    grind
  next d ds' hrun =>
    obtain ⟨rfl, -⟩ : d :: ds' = ds ∧ _ := by simpa using h
    rw [← hrun]
    exact ( List.takeWhile_prefix isOctal).length_le.trans (List.length_take_le 3 es)

/-- Only a number in braces can be the code of no character. -/
theorem beyond_of_value_eq_error {err : ConversionError} {rest : List Char}
    (h : read? es = some (e, rest)) (hvalue : e.value = .error err) :
    ∃ ds, e = .braced ds ∧ 0x10FFFF < numberInBase 16 ds := by
  have hle {n : Nat} (hn : n ≤ 0x10FFFF) : charOfCode n ≠ .error err := by
    obtain ⟨c, hc⟩ := exists_charOfCode hn
    rw [hc]
    rintro ⟨⟩
  cases e with
  | octal ds => exact absurd hvalue (hle (numberInBase_le (by decide) (length_le_of_octal h)))
  | braced ds => exact ⟨ds, rfl, Nat.lt_of_not_le fun hn => hle hn hvalue⟩
  | pair a b => exact absurd hvalue (hle (numberInBase_le (by decide) (by simp)))
  | control c => cases hvalue
  | single c => cases hvalue

end Escape

namespace Quotes

open Lexeme

variable {mark : Char} {k : Kind} {es : List Char}

/-- The caret takes the next character with it when it is decoded, but not when the end of the quoted
text is looked for. -/
theorem mem_inside_of_decoded (hq : Quotes mark k) (h : es ∈ decodedText) (hmark : es ≠ ['^', mark])
    (hback : es ≠ ['^', '\\']) : '\\' :: es ∈ inside mark := by
  rcases h with hescape | hpair
  · rcases mem_escapeText.1 hescape with hoctal | ⟨ds, -, hds, rfl⟩ | ⟨c, rfl⟩ | ⟨c, rfl⟩
    · obtain ⟨hne, -, hall⟩ := mem_octalText.1 hoctal
      cases es with
      | nil => exact absurd rfl hne
      | cons d ds =>
        obtain ⟨-, htail⟩ := List.forall_mem_cons.1 hall
        exact mem_inside_of_escape fun c hc => hq.ne_of_isOctal (htail c hc)
    · exact hq.braced_mem_inside hds
    · refine mem_inside_of_escape ?_
      simpa using And.intro (fun heq => hmark (by rw [heq])) (fun heq => hback (by rw [heq]))
    · exact mem_inside_of_escape (by simp)
  · obtain ⟨a, b, ha, hb, rfl⟩ := mem_pairText.1 hpair
    exact mem_inside_of_escape (by simp [hq.ne_of_isHex ha, hq.ne_of_isHex hb])

theorem malformed_of_caret (hq : Quotes mark k) (h : es = ['^', mark] ∨ es = ['^', '\\'])
    (file : Option String) :
    ∃ d, tokensOfText file (String.ofList (mark :: '\\' :: es ++ [mark])) = .error (.malformed d) := by
  have hopen (cs : List Char) (hcs : Scanner.between mark (mark :: cs) = none) (o : Nat) :
      TokenStream.scan o (mark :: cs) = .error (.unexpected o mark) :=
    TokenStream.scan_of_none (first?_of_open hq.eq_or hcs)
  rw [tokensOfText, TokenStream.ofText, String.toList_ofList]
  rcases h with rfl | rfl
  · have hcaret : ['\\', '^'] ∈ inside mark := mem_inside_of_escape (by simp)
    have hfirst := hq.first?_eq hcaret [mark]
    have hmeaning : unescape ['\\', '^'] = .ok ['^'] := by
      rw [unescape_of_value (e := .single '^') (c := '^') rfl rfl, unescape]
      rfl
    have htoken := hq.token?_eq ['\\', '^'] 0
    rw [hmeaning] at htoken
    have hscan : TokenStream.scan 0 (mark :: '\\' :: ['^', mark] ++ [mark]) =
        .error (.unexpected 4 mark) := by
      refine (TokenStream.scan_of_first? hfirst htoken).trans ?_
      rw [hopen [] (by rcases hq.eq_or with rfl | rfl <;> rfl)]
      rfl
    rw [hscan]
    exact ⟨_, rfl⟩
  · have hscan := hopen ['\\', '^', '\\', mark] (by rcases hq.eq_or with rfl | rfl <;> rfl) 0
    simp only [List.cons_append, List.nil_append]
    rw [hscan]
    exact ⟨_, rfl⟩

end Quotes

theorem tokensOfText_char_iff {es : List Char} (file : Option String) :
    tokensOfText file (String.ofList ('$' :: '\\' :: es)) =
        .ok ⟨[⟨.char, String.ofList ('$' :: '\\' :: es), 0⟩], es.length + 2⟩ ↔
      es ∈ Lexeme.escapeText := by
  rw [tokensOfText_eq_ok, String.toList_ofList]
  constructor
  · rintro ⟨hscans, -⟩
    obtain ⟨cs, l, rest, hfirst, hmeaning, -⟩ := hscans.exists_lexeme (List.mem_singleton.2 rfl)
    obtain rfl : l = '$' :: '\\' :: es := String.ofList_injective (Except.ok.inj hmeaning)
    have hl := Scanner.munches_char.mem (Lexeme.ofKind_of_first? hfirst)
    rcases Lexeme.mem_charText.1 hl with ⟨es', hes', heq⟩ | ⟨c, hc, heq⟩
    · obtain rfl : es = es' := by simpa using heq
      exact hes'
    · exact absurd (List.cons.inj (List.cons.inj heq).2).1.symm hc
  · intro h
    have hwhole := Scanner.munches_char.whole Scanner.splits_char
      (Lexeme.mem_charText.2 (.inl ⟨es, h, rfl⟩))
    have hfirst : Lexeme.first? ('$' :: '\\' :: es) =
        some (⟨some .char, '$' :: '\\' :: es⟩, []) := by
      refine Lexeme.first?_of_ofKind rfl (fun k hk => ?_) hwhole
      obtain rfl | rfl : k = .atom ∨ k = .string := by simpa [Lexeme.kinds] using hk
      · rfl
      · rfl
    exact ⟨.next (t := some _) hfirst rfl .nil, rfl⟩

/-- What is decoded as one escape is one character after a dollar sign, unless it is a pair of digits,
and one quoted character between marks, unless a caret stands before the mark or a backslash. Between
marks it has no value only if its digits are the code of no character. -/
theorem decoded_escape_in_lexemes {es : List Char} (h : es ∈ Lexeme.decodedText)
    (file : Option String) :
    (tokensOfText file (String.ofList ('$' :: '\\' :: es)) =
        .ok ⟨[⟨.char, String.ofList ('$' :: '\\' :: es), 0⟩], es.length + 2⟩ ↔
      es ∉ Lexeme.pairText) ∧
    ∃ e, Escape.read? es = some (e, []) ∧
      (∀ err, e.value = .error err → ∃ ds, e = .braced ds ∧ 0x10FFFF < numberInBase 16 ds) ∧
      ∀ mark k, Quotes mark k →
        (tokensOfText file (String.ofList (mark :: '\\' :: es ++ [mark])) =
            (e.value.map fun c => ⟨[⟨k, String.singleton c, 0⟩], es.length + 3⟩).mapError
              .conversion ↔
          es ≠ ['^', mark] ∧ es ≠ ['^', '\\']) := by
  obtain ⟨e, he⟩ := Escape.exists_read? h
  refine ⟨?_, e, he, fun err => Escape.beyond_of_value_eq_error he, fun mark k hq => ⟨?_, ?_⟩⟩
  · rw [tokensOfText_char_iff]
    exact ⟨Lexeme.not_mem_pairText, h.resolve_right⟩
  · intro htokens
    rw [← not_or]
    intro hcaret
    obtain ⟨d, hd⟩ := hq.malformed_of_caret hcaret file
    rw [hd] at htokens
    cases hvalue : e.value <;> rw [hvalue] at htokens <;> cases htokens
  · rintro ⟨hmark, hback⟩
    have hinside := hq.mem_inside_of_decoded h hmark hback
    have hmeaning : unescape ('\\' :: es) = e.value.map ([·]) := by
      rw [unescape_of_read? he, unescape]
      cases e.value <;> rfl
    rw [hq.tokensOfText_eq hinside, hmeaning]
    cases e.value <;> rfl

/-- A caret before the other mark. -/
theorem decoded_escape_in_lexemes_caret :
    ['^', '"'] ∈ Lexeme.decodedText ∧
      tokensOfText none "$\\^\"" = .ok ⟨[⟨.char, "$\\^\"", 0⟩], 4⟩ ∧
      tokensOfText none "'\\^\"'" = .ok ⟨[⟨.atom, "\x02", 0⟩], 5⟩ ∧
      tokensOfText none "\"\\^\"\"" ≠ .ok ⟨[⟨.string, "\x02", 0⟩], 5⟩ := by
  have hmem : ['^', '"'] ∈ Lexeme.decodedText :=
    .inl (Lexeme.mem_escapeText.2 (.inr (.inr (.inl ⟨'"', rfl⟩))))
  obtain ⟨hchar, e, he, -, hquoted⟩ := decoded_escape_in_lexemes hmem none
  obtain rfl : Escape.control '"' = e := (Prod.mk.inj (Option.some.inj he)).1
  refine ⟨hmem, hchar.2 ?_, (hquoted '\'' .atom .atom).2 (by decide), fun h => ?_⟩
  · rw [Lexeme.mem_pairText]
    rintro ⟨a, b, -, -, heq⟩
    simp at heq
  · exact ((hquoted '"' .string .string).1 h).1 rfl

/-- A pair of digits is decoded as one escape and is two lexemes in a character. A caret and a mark
are decoded as one escape, and the mark ends the quoted text. -/
theorem decoded_escape_split :
    ['x', '4', '1'] ∈ Lexeme.decodedText ∧
      tokensOfText none "$\\x41" = .ok ⟨[⟨.char, "$\\x", 0⟩, ⟨.integer, "41", 3⟩], 5⟩ ∧
      ['^', '\''] ∈ Lexeme.decodedText ∧
      ∃ d, tokensOfText none "'\\^''" = .error (.malformed d) := by
  refine ⟨.inr (Lexeme.mem_pairText.2 ⟨'4', '1', rfl, rfl, rfl⟩), ?_, ?_, ?_⟩
  · exact tokensOfText_eq_ok.2
      ⟨.next (t := some _) rfl rfl (.next (t := some _) rfl rfl .nil), rfl⟩
  · exact .inl (Lexeme.mem_escapeText.2 (.inr (.inr (.inl ⟨'\'', rfl⟩))))
  · exact Quotes.atom.malformed_of_caret (.inl rfl) none

end CallGraph
