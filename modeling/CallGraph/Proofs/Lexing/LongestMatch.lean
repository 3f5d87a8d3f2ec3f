import CallGraph.Proofs.Lexing.Languages
import CallGraph.Proofs.Lexing.Texts

/-!
A text is cut into lexemes that are each as long as can be. Two classes of lexemes that can both be in
front of a text are those of numbers, of which the one with a point is longer than the other. So the
order in which the classes are tried does not matter.
-/

namespace CallGraph

open Text

/-! ## Characters -/

theorem Text.isBlank_of_range {c : Char} (h : 33 ≤ c.toNat ∧ c.toNat ≤ 126) :
    isBlank c = false := by
  rw [Bool.eq_false_iff]
  simp only [isBlank, ne_eq, Bool.or_eq_true, Bool.and_eq_true, decide_eq_true_eq, beq_iff_eq]
  omega

/-- The digits of a script are all before a blank or all after it. -/
theorem Text.gap_of_mem_digitZeros : ∀ z ∈ digitZeros,
    z = 48 ∨ (0x660 ≤ z ∧ z + 10 ≤ 0x1680) ∨ (0x1680 < z ∧ z + 10 ≤ 0x2000) ∨ 0x3000 < z := by
  decide

theorem Text.isBlank_of_isDigit {c : Char} (h : isDigit c = true) : isBlank c = false := by
  by_cases hascii : c.toNat < 128
  · have hrange := (isDigit_iff_of_lt hascii).1 h
    exact isBlank_of_range (by omega)
  · obtain ⟨z, hz, hle, hlt⟩ : ∃ z ∈ digitZeros, z ≤ c.toNat ∧ c.toNat < z + 10 := by
      have hvalue : (digitValue? c).isSome = true := by
        rw [isDigit, Bool.or_eq_true, Bool.and_eq_true, Bool.and_eq_true] at h
        rcases h with ⟨-, hnine⟩ | ⟨-, hvalue⟩
        · have hle : c.toNat ≤ 57 := of_decide_eq_true hnine
          omega
        · exact hvalue
      simpa [digitValue?] using hvalue
    have hgap := gap_of_mem_digitZeros z hz
    rw [Bool.eq_false_iff]
    simp only [isBlank, ne_eq, Bool.or_eq_true, Bool.and_eq_true, decide_eq_true_eq, beq_iff_eq]
    omega

theorem Text.range_of_isLower {c : Char} (h : c.isLower = true) : 97 ≤ c.toNat ∧ c.toNat ≤ 122 := by
  obtain ⟨hlow, hhigh⟩ := Bool.and_eq_true_iff.1 h
  exact ⟨UInt32.le_iff_toNat_le.1 (of_decide_eq_true hlow),
    UInt32.le_iff_toNat_le.1 (of_decide_eq_true hhigh)⟩

namespace Lexeme

variable {cs l rest s t : List Char} {k : Option Kind}

/-! ## Classes and the front of a text -/

/-- The class of the lexemes that can be in front of a text, by its first two characters. All numbers
count as integers. -/
def opening : List Char → Option Kind
  | [] => none
  | c :: cs =>
    if c == '%' || isBlank c then none
    else if c == '\'' then some .atom
    else if c == '"' then some .string
    else if c == '$' then some .char
    else if isDigit c || c == '+' || (c == '-' && cs.head?.any isDigit) then some .integer
    else if c.isUpper || c == '_' then some .var
    else if c.isLower then some .name
    else some .punct

/-- The class, with those of all numbers as one. -/
def family : Option Kind → Option Kind
  | some .float => some .integer
  | k => k

theorem opening_of_isDigit {c : Char} (h : isDigit c = true) (cs : List Char) :
    opening (c :: cs) = some .integer := by
  have hne (d : Char) (hd : isDigit d = false) : (c == d) = false := by
    rw [beq_eq_false_iff_ne]
    rintro rfl
    rw [h] at hd
    cases hd
  simp [opening, h, hne '%' rfl, isBlank_of_isDigit h, hne '\'' rfl, hne '"' rfl, hne '$' rfl]

theorem opening_of_letter {c : Char} (h : 65 ≤ c.toNat ∧ c.toNat ≤ 122) (cs : List Char) :
    opening (c :: cs) =
      if c.isUpper || c == '_' then some .var else if c.isLower then some .name else some .punct := by
  have hne (d : Char) (hd : d.toNat < 65) : (c == d) = false := by
    rw [beq_eq_false_iff_ne]
    rintro rfl
    omega
  have hdigit : isDigit c = false := by
    rw [Bool.eq_false_iff, ne_eq, isDigit_iff_of_lt (by omega)]
    omega
  simp [opening, hdigit, isBlank_of_range (c := c) (by omega), hne '%' (by decide),
    hne '\'' (by decide), hne '"' (by decide), hne '$' (by decide), hne '+' (by decide),
    hne '-' (by decide)]

theorem opening_of_signed {L : Language Char}
    (hL : ∀ s ∈ L, ∃ c l, s = c :: l ∧ isDigit c = true) (hs : s ∈ signedText L) (t : List Char) :
    opening (s ++ t) = some .integer := by
  rcases mem_signedText.1 hs with hs | ⟨c, l, hc, hl, rfl⟩
  · obtain ⟨c, l, rfl, hc⟩ := hL s hs
    exact opening_of_isDigit hc (l ++ t)
  · obtain ⟨d, l, rfl, hd⟩ := hL l hl
    rcases hc with rfl | rfl
    · rfl
    · simp only [List.cons_append, opening, List.head?_cons, Option.any_some, hd]
      rfl

theorem opening_of_mem_marks : ∀ m ∈ Word.marks, ∀ t, opening (m.toList ++ t) = some .punct := by
  simp only [Word.marks, List.forall_mem_cons]
  refine ⟨?_, ?_, ?_, ?_, ?_, ?_, ?_, ?_, ?_, ?_, ?_, ?_, ?_, ?_, ?_, ?_, ?_, ?_, ?_, ?_, ?_, ?_,
    List.forall_mem_nil _⟩
  all_goals exact fun _ => rfl

/-- A lexeme of a class is in front of a text of its family only. -/
theorem opening_of_mem_language (hs : s ∈ language k) (t : List Char) :
    opening (s ++ t) = family k := by
  rcases k with _ | k
  · rcases mem_blankText.1 hs with hs | ⟨l, -, rfl⟩
    · obtain ⟨c, l, rfl, hc, -⟩ := mem_oneOf_mul_kstar.1 hs
      simp [opening, hc, family]
    · rfl
  cases k with
  | atom => obtain ⟨l, -, rfl⟩ := mem_quotedText.1 hs; rfl
  | string => obtain ⟨l, -, rfl⟩ := mem_quotedText.1 hs; rfl
  | char => rcases mem_charText.1 hs with ⟨es, -, rfl⟩ | ⟨c, -, rfl⟩ <;> rfl
  | float =>
    refine opening_of_signed (fun s hs => ?_) hs t
    obtain ⟨ds, fs, es, hds, -, -, rfl⟩ := mem_decimalText.1 hs
    obtain ⟨c, l, rfl, hc⟩ := Scanner.exists_digit_of_row hds
    exact ⟨c, _, rfl, hc⟩
  | integer => exact opening_of_signed (fun s hs => Scanner.exists_digit_of_row hs) hs t
  | var =>
    obtain ⟨c, l, rfl, hc, -⟩ := mem_oneOf_mul_kstar.1 hs
    have hrange : 65 ≤ c.toNat ∧ c.toNat ≤ 95 := by
      rcases Bool.or_eq_true _ _ ▸ hc with hupper | hline
      · have := range_of_isUpper hupper
        omega
      · rw [beq_iff_eq.1 hline]
        decide
    rw [List.cons_append, opening_of_letter (by omega), if_pos hc]
    rfl
  | name =>
    obtain ⟨c, l, rfl, hc, -⟩ := mem_oneOf_mul_kstar.1 hs
    have hrange := range_of_isLower hc
    have hupper : ¬ (c.isUpper || c == '_') = true := by
      rw [Bool.or_eq_true, beq_iff_eq]
      rintro (hupper | rfl)
      · have := range_of_isUpper hupper
        omega
      · exact absurd hrange.1 (by decide)
    rw [List.cons_append, opening_of_letter (by omega), if_neg hupper, if_pos hc]
    rfl
  | punct =>
    obtain ⟨m, hm, rfl⟩ := hs
    exact opening_of_mem_marks m hm t

/-- A number with a point is longer than any without in front of the same text. -/
theorem length_lt_of_float (hs : s ∈ language (some .integer)) (hl : l ∈ language (some .float))
    (hscs : s <+: cs) (hlcs : l <+: cs) : s.length < l.length := by
  rw [← Nat.not_le]
  intro hle
  have hpoint : '.' ∈ l := by
    rcases mem_signedText.1 hl with hdecimal | ⟨c, l, -, hdecimal, rfl⟩
    · obtain ⟨ds, fs, es, -, -, -, rfl⟩ := mem_decimalText.1 hdecimal
      simp
    · obtain ⟨ds, fs, es, -, -, -, rfl⟩ := mem_decimalText.1 hdecimal
      simp
  have hmem : '.' ∈ s := ( List.prefix_of_prefix_length_le hlcs hscs hle).mem hpoint
  rcases mem_signedText.1 hs with hrow | ⟨c, ds, hc, hrow, rfl⟩
  · exact absurd ((mem_rowOf.1 hrow).2 '.' hmem) (by decide)
  · rcases List.mem_cons.1 hmem with rfl | hmem
    · exact absurd hc (by decide)
    · exact absurd ((mem_rowOf.1 hrow).2 '.' hmem) (by decide)

/-! ## The first lexeme -/

/-- The lexeme is in front of the text, and whatever else of some class is in front of it is
shorter. -/
structure Longest (l : Lexeme) (cs : List Char) : Prop where
  ne_nil : l.spelling ≠ []
  front : l.spelling <+: cs
  mem : l.spelling ∈ language l.kind
  longest : ∀ k s, s ∈ language k → s <+: cs →
    s.length < l.spelling.length ∨ (k = l.kind ∧ s = l.spelling)

theorem Longest.unique {l l' : Lexeme} (h : l.Longest cs) (h' : l'.Longest cs) : l = l' := by
  obtain ⟨k, s⟩ := l
  obtain ⟨k', s'⟩ := l'
  rcases h.longest _ _ h'.mem h'.front with hlt | ⟨rfl, rfl⟩
  · rcases h'.longest _ _ h.mem h.front with hlt' | ⟨rfl, rfl⟩
    · exact absurd hlt' (Nat.lt_asymm hlt)
    · rfl
  · rfl

/-- What a scanner takes is no shorter than what is in its language. -/
theorem longest_of_munches {scan : Scanner} {L : Language Char} (hscan : scan.Munches L)
    (hl : scan cs = some (l, rest)) (hlcs : l <+: cs) (hs : s ∈ L) (hscs : s <+: cs) :
    s.length < l.length ∨ s = l := by
  obtain ⟨t, rfl⟩ := hscs
  obtain ⟨l', rest', hl', hle⟩ := hscan.reaches hs t
  rw [hl] at hl'
  obtain ⟨rfl, -⟩ := Prod.mk.inj (Option.some.inj hl')
  rcases Nat.lt_or_eq_of_le hle with hlt | heq
  · exact .inl hlt
  · refine .inr (( List.prefix_of_prefix_length_le ?_ hlcs hle).eq_of_length heq)
    exact List.prefix_append s t

/-- The first lexeme is the longest that any class has. -/
theorem longest_of_first? {l : Lexeme} (h : first? cs = some (l, rest)) : l.Longest cs := by
  obtain ⟨hcs, hne⟩ := first?_eq h
  have hfront : l.spelling <+: cs := ⟨rest, hcs.symm⟩
  obtain ⟨kind, l⟩ := l
  have hfamily {k : Option Kind} {s : List Char} (hl : l ∈ language kind) (hs : s ∈ language k)
      (hscs : s <+: cs) : family k = family kind := by
    obtain ⟨t, rfl⟩ := hscs
    rw [← opening_of_mem_language hs t, hcs]
    exact opening_of_mem_language hl rest
  rcases kind with _ | kind
  · have hblank := blank_of_first? h
    have hmem : l ∈ language none := Scanner.munches_blank.mem hblank
    refine ⟨hne, hfront, hmem, fun k s hs hscs => ?_⟩
    obtain rfl : k = none := by
      have hk := hfamily hmem hs hscs
      rcases k with _ | k
      · rfl
      · cases k <;> cases hk
    rcases longest_of_munches Scanner.munches_blank hblank hfront hs hscs with hlt | heq
    · exact .inl hlt
    · exact .inr ⟨rfl, heq⟩
  · have hkind := ofKind_of_first? h
    have hmem := (Scanner.munches_ofKind kind).mem hkind
    refine ⟨hne, hfront, hmem, fun k s hs hscs => ?_⟩
    have hk := hfamily hmem hs hscs
    by_cases heq : k = some kind
    · subst heq
      rcases longest_of_munches (Scanner.munches_ofKind kind) hkind hfront hs hscs with hlt | heq
      · exact .inl hlt
      · exact .inr ⟨rfl, heq⟩
    -- Two classes of one family are those of the numbers, and the longer one is tried first.
    obtain ⟨rfl, rfl⟩ | ⟨rfl, rfl⟩ : (k = some .integer ∧ kind = .float) ∨
        (k = some .float ∧ kind = .integer) := by
      rcases k with _ | k
      · cases kind <;> cases hk
      · cases k <;> cases kind <;> first
          | exact .inl ⟨rfl, rfl⟩
          | exact .inr ⟨rfl, rfl⟩
          | exact absurd rfl heq
          | cases hk
    · exact .inl (length_lt_of_float hs hmem hscs hfront)
    · obtain ⟨t, rfl⟩ := hscs
      obtain ⟨l', rest', hl', -⟩ := Scanner.munches_float.reaches hs t
      have hnone := ofKind_eq_none_of_first? h .float (by decide)
      exact absurd (hl'.symm.trans hnone) (by simp)

/-- A text without a first lexeme is one in which no class matches. -/
theorem first?_eq_none_iff : first? cs = none ↔ ∀ k, ∀ s ∈ language k, ¬ s <+: cs := by
  constructor
  · rintro h k s hs ⟨t, rfl⟩
    unfold first? at h
    split at h
    next => cases h
    next hblank =>
      rcases k with _ | k
      · obtain ⟨l, rest, hl, -⟩ := Scanner.munches_blank.reaches hs t
        rw [hblank] at hl
        cases hl
      · obtain ⟨l, rest, hl, -⟩ := (Scanner.munches_ofKind k).reaches hs t
        have hnone := List.findSome?_eq_none_iff.1 h k (by cases k <;> decide)
        rw [ofKind?, hl] at hnone
        cases hnone
  · intro h
    cases hfirst : first? cs with
    | none => rfl
    | some r =>
      have hlongest := longest_of_first? hfirst
      exact absurd hlongest.front (h _ _ hlongest.mem)

theorem first?_eq_some_iff {l : Lexeme} :
    first? cs = some (l, rest) ↔ cs = l.spelling ++ rest ∧ l.Longest cs := by
  constructor
  · intro h
    exact ⟨(first?_eq h).1, longest_of_first? h⟩
  · rintro ⟨hcs, hl⟩
    cases hfirst : first? cs with
    | none => exact absurd hl.front (first?_eq_none_iff.1 hfirst _ _ hl.mem)
    | some r =>
      obtain ⟨l', rest'⟩ := r
      obtain rfl := (longest_of_first? hfirst).unique hl
      rw [(first?_eq hfirst).1] at hcs
      rw [List.append_cancel_left hcs]

/-! ## Whole texts -/

/-- The text as lexemes one after the other, each as long as can be, and what is left of it. -/
inductive Munches : List Char → List Lexeme → List Char → Prop
  | stop (cs : List Char) : Munches cs [] cs
  | next {l : Lexeme} {rest left : List Char} {ls : List Lexeme} :
      l.Longest (l.spelling ++ rest) → Munches rest ls left →
      Munches (l.spelling ++ rest) (l :: ls) left

theorem Munches.eq_append {ls : List Lexeme} {left : List Char} (h : Munches cs ls left) :
    cs = ls.flatMap spelling ++ left := by
  induction h with
  | stop cs => rfl
  | next _ _ ih => rw [List.flatMap_cons, List.append_assoc, ← ih]

/-- The tokens of lexemes that follow each other from an offset on. A blank has none, any other
lexeme has one of its kind at the place where it begins. -/
inductive HasTokens : Nat → List Lexeme → List Token → Prop
  | nil (o : Nat) : HasTokens o [] []
  | blank {o : Nat} {l : List Char} {ls : List Lexeme} {ts : List Token} :
      HasTokens (o + l.length) ls ts → HasTokens o (⟨none, l⟩ :: ls) ts
  | token {o : Nat} {k : Kind} {l : List Char} {text : String} {ls : List Lexeme}
      {ts : List Token} : meaning k l = .ok text → HasTokens (o + l.length) ls ts →
      HasTokens o (⟨some k, l⟩ :: ls) (⟨k, text, o⟩ :: ts)

theorem HasTokens.of_token? {o : Nat} {l : Lexeme} {t : Option Token} {ls : List Lexeme}
    {ts : List Token} (ht : l.token? o = .ok t) (h : HasTokens (o + l.spelling.length) ls ts) :
    HasTokens o (l :: ls) (t.toList ++ ts) := by
  obtain ⟨_ | k, l⟩ := l
  · cases ht
    exact .blank h
  · obtain ⟨⟨kind, text, offset⟩, rfl, rfl, hmeaning⟩ := TokenStream.exists_of_token? ht
    obtain ⟨-, -, rfl⟩ := token?_eq_some.1 ht
    exact .token hmeaning h

theorem HasTokens.exists_token? {o : Nat} {l : Lexeme} {ls : List Lexeme} {ts : List Token}
    (h : HasTokens o (l :: ls) ts) :
    ∃ t ts', l.token? o = .ok t ∧ ts = t.toList ++ ts' ∧
      HasTokens (o + l.spelling.length) ls ts' := by
  cases h with
  | blank h => exact ⟨none, ts, rfl, rfl, h⟩
  | token hmeaning h => exact ⟨_, _, token?_eq_some.2 ⟨rfl, hmeaning, rfl⟩, rfl, h⟩

end Lexeme

namespace TokenStream

open Lexeme

variable {cs : List Char} {o : Nat} {ts : List Token}

theorem scans_iff_munches : Scans o cs ts ↔ ∃ ls, Munches cs ls [] ∧ HasTokens o ls ts := by
  constructor
  · intro h
    induction h with
    | nil => exact ⟨[], .stop [], .nil _⟩
    | next hfirst htoken _ ih =>
      obtain ⟨ls, hls, hts⟩ := ih
      obtain ⟨rfl, hlongest⟩ := first?_eq_some_iff.1 hfirst
      exact ⟨_ :: ls, .next hlongest hls, .of_token? htoken hts⟩
  · rintro ⟨ls, hls, hts⟩
    generalize hleft : ([] : List Char) = left at hls
    induction hls generalizing o ts with
    | stop cs =>
      cases hts
      rw [← hleft]
      exact .nil
    | next hlongest _ ih =>
      obtain ⟨t, ts', ht, rfl, hts'⟩ := hts.exists_token?
      exact .next (first?_eq_some_iff.2 ⟨rfl, hlongest⟩) ht (ih hts' hleft)

/-- A scan stops where no class of lexemes matches, and only there. -/
theorem scan_eq_unexpected_iff {n : Nat} {c : Char} :
    scan o cs = .error (.unexpected n c) ↔
      ∃ ls left ts, Munches cs ls (c :: left) ∧ HasTokens o ls ts ∧
        n = o + (ls.flatMap spelling).length ∧ first? (c :: left) = none := by
  constructor
  · intro h
    fun_induction scan o cs with
    | case1 o cs l rest hfirst _ ih =>
      cases htoken : l.token? o with
      | error e => rw [htoken] at h; cases h
      | ok t =>
        have hrest : scan (o + l.spelling.length) rest = .error (.unexpected n c) := by
          rw [htoken] at h
          cases hscan : scan (o + l.spelling.length) rest with
          | error e => rw [hscan] at h; cases h; rfl
          | ok ts => rw [hscan] at h; cases h
        obtain ⟨ls, left, ts, hls, hts, rfl, hnone⟩ := ih hrest
        obtain ⟨rfl, hlongest⟩ := first?_eq_some_iff.1 hfirst
        refine ⟨l :: ls, left, _, .next hlongest hls, .of_token? htoken hts, ?_, hnone⟩
        rw [List.flatMap_cons, List.length_append, Nat.add_assoc]
    | case2 => cases h
    | case3 o d cs hnone =>
      cases h
      exact ⟨[], cs, [], .stop _, .nil _, rfl, hnone⟩
  · rintro ⟨ls, left, ts, hls, hts, rfl, hnone⟩
    generalize hleft : c :: left = remnant at hls
    induction hls generalizing o ts with
    | stop cs =>
      rw [← hleft]
      exact scan_of_none hnone
    | @next l rest _ ls hlongest _ ih =>
      obtain ⟨t, ts', ht, rfl, hts'⟩ := hts.exists_token?
      rw [scan_of_first? (first?_eq_some_iff.2 ⟨rfl, hlongest⟩) ht, ih _ hts' hleft,
        List.flatMap_cons, List.length_append, Nat.add_assoc]
      rfl

end TokenStream

open Lexeme TokenStream

/-- A text is malformed if its scan meets a character that it does not expect. -/
theorem tokensOfText_eq_malformed {file : Option String} {text : String} {d : Diagnostic} :
    tokensOfText file text = .error (.malformed d) ↔
      ∃ n c, scan 0 text.toList = .error (.unexpected n c) ∧
        d = .located file (.ofOffset text.toList n)
          ("unexpected character " ++ Text.quoted (String.singleton c)) := by
  rw [tokensOfText, ofText]
  rcases scan 0 text.toList with (⟨n, c⟩ | e) | ts
  · constructor
    · intro h
      cases h
      exact ⟨n, c, rfl, rfl⟩
    · rintro ⟨n', c', h, rfl⟩
      cases h
      rfl
  · exact iff_of_false (by rintro ⟨⟩) (by rintro ⟨_, _, ⟨⟩, _⟩)
  · exact iff_of_false (by rintro ⟨⟩) (by rintro ⟨_, _, ⟨⟩, _⟩)

/-- Tokens are those of the lexemes into which the text is cut, where each lexeme is the longest that
any class of lexemes has in front of what follows. A text has no tokens if such lexemes lead to a
place where no class matches, and the place is told. -/
theorem tokens_of_longest_lexemes (file : Option String) (text : String) :
    (∀ stream, tokensOfText file text = .ok stream ↔
      ∃ ls, Munches text.toList ls [] ∧ ls.flatMap spelling = text.toList ∧
        HasTokens 0 ls stream.tokens ∧ stream.length = text.toList.length) ∧
    (∀ d, tokensOfText file text = .error (.malformed d) ↔
      ∃ ls c left ts, Munches text.toList ls (c :: left) ∧ HasTokens 0 ls ts ∧
        ls.flatMap spelling ++ c :: left = text.toList ∧
        (∀ k, ∀ s ∈ language k, ¬ s <+: c :: left) ∧
        d = .located file (.ofOffset text.toList (ls.flatMap spelling).length)
          ("unexpected character " ++ Text.quoted (String.singleton c))) := by
  constructor
  · intro stream
    rw [tokensOfText_eq_ok, scans_iff_munches]
    constructor
    · rintro ⟨⟨ls, hls, hts⟩, hlength⟩
      exact ⟨ls, hls, by simpa using hls.eq_append.symm, hts, hlength⟩
    · rintro ⟨ls, hls, -, hts, hlength⟩
      exact ⟨⟨ls, hls, hts⟩, hlength⟩
  · intro d
    rw [tokensOfText_eq_malformed]
    constructor
    · rintro ⟨n, c, h, rfl⟩
      obtain ⟨ls, left, ts, hls, hts, rfl, hnone⟩ := scan_eq_unexpected_iff.1 h
      refine ⟨ls, c, left, ts, hls, hts, hls.eq_append.symm, first?_eq_none_iff.1 hnone, ?_⟩
      rw [Nat.zero_add]
    · rintro ⟨ls, c, left, ts, hls, hts, -, hnone, rfl⟩
      refine ⟨_, c, scan_eq_unexpected_iff.2 ⟨ls, left, ts, hls, hts, rfl,
        first?_eq_none_iff.2 hnone⟩, ?_⟩
      rw [Nat.zero_add]

end CallGraph
