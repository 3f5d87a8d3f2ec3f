import CallGraph.Proofs.Spelling

/-!
What the scanners find in the beginning of a text. A scanner never looks behind its lexeme for a
reason to take less, so every lexeme that stands whole in the beginning of a text is found there
too. Of a lexeme that is cut short, only certain characters can be left.
-/

namespace CallGraph

open Text

variable {cs q l rest : List Char}

theorem of_mem_takeWhile {p : Char → Bool} {c : Char} (h : c ∈ cs.takeWhile p) : p c = true :=
  List.all_eq_true.1 List.all_takeWhile c h

theorem dropWhile_of_append {p : Char → Bool} (h : (cs ++ q).dropWhile p = rest ++ q) :
    cs.takeWhile p = (cs ++ q).takeWhile p ∧ cs.dropWhile p = rest := by
  induction cs with
  | nil =>
    have hsplit := congrArg List.length (List.takeWhile_append_dropWhile (p := p) (l := q))
    rw [List.nil_append] at h ⊢
    rw [h] at hsplit
    simp only [List.length_append] at hsplit
    have hrest : rest = [] := List.eq_nil_of_length_eq_zero (by omega)
    have htake : q.takeWhile p = [] := List.eq_nil_of_length_eq_zero (by omega)
    rw [htake, hrest]
    exact ⟨rfl, rfl⟩
  | cons c cs ih =>
    cases hc : p c with
    | true =>
      simp only [List.cons_append, List.dropWhile_cons, List.takeWhile_cons, hc, if_true] at h ⊢
      obtain ⟨htake, hdrop⟩ := ih h
      exact ⟨by rw [htake], hdrop⟩
    | false =>
      simp only [List.cons_append, List.dropWhile_cons, List.takeWhile_cons, hc,
        Bool.false_eq_true, if_false] at h ⊢
      rw [← List.cons_append] at h
      exact ⟨trivial, List.append_cancel_right h⟩

/-- The beginning of a row is a row. -/
theorem takeWhile_of_length_le {p : Char → Bool}
    (h : cs.length ≤ ((cs ++ q).takeWhile p).length) :
    cs.takeWhile p = cs ∧ cs.dropWhile p = [] := by
  have hprefix : cs <+: (cs ++ q).takeWhile p :=
    List.prefix_of_prefix_length_le (List.prefix_append cs q) ( List.takeWhile_prefix p) h
  have hall : ∀ c ∈ cs, p c = true := fun c hc => of_mem_takeWhile ( hprefix.mem hc)
  have hdrop : cs.dropWhile p = [] := by
    have happend : (cs ++ []).dropWhile p = [].dropWhile p := List.dropWhile_append_of_pos hall
    rwa [List.append_nil] at happend
  have hsplit := List.takeWhile_append_dropWhile (p := p) (l := cs)
  rw [hdrop, List.append_nil] at hsplit
  exact ⟨hsplit, hdrop⟩

/-- A row that is ended by a character is not made longer. -/
theorem takeWhile_append_of_ne_nil {p : Char → Bool} (h : cs.dropWhile p ≠ []) (q : List Char) :
    (cs ++ q).takeWhile p = cs.takeWhile p ∧ (cs ++ q).dropWhile p = cs.dropWhile p ++ q := by
  have hsplit := congrArg List.length (List.takeWhile_append_dropWhile (p := p) (l := cs))
  have hpos := List.length_pos_iff.2 h
  rw [List.length_append] at hsplit
  rw [List.takeWhile_append, if_neg (by omega), List.dropWhile_append, if_neg (by simpa using h)]
  exact ⟨rfl, rfl⟩

namespace Scanner

/-- What is found in a longer text is found in a shorter one, if all of it is there, and nothing is
found in a shorter text only. -/
structure Cuts (scan : Scanner) : Prop where
  found : ∀ ⦃cs q l rest⦄, scan (cs ++ q) = some (l, rest ++ q) → scan cs = some (l, rest)
  missing : ∀ ⦃cs q⦄, scan (cs ++ q) = none → scan cs = none

/-- No lexeme is in a text without characters. -/
theorem Splits.append_ne_nil {scan : Scanner} (hscan : Splits scan)
    (h : scan (cs ++ q) = some (l, rest ++ q)) : cs = l ++ rest ∧ cs ≠ [] := by
  obtain ⟨hcs, hne⟩ := hscan _ _ _ h
  rw [← List.append_assoc] at hcs
  have hcs' := List.append_cancel_right hcs
  exact ⟨hcs', by simp [hcs', hne]⟩

theorem Splits.nil {scan : Scanner} (hscan : Splits scan) : scan [] = none := by
  rw [Option.eq_none_iff_forall_ne_some]
  intro r h
  obtain ⟨hnil, hne⟩ := hscan _ _ _ h
  exact hne (List.append_eq_nil_iff.1 hnil.symm).1

/-- A character and those of a class after it. -/
theorem row_of_append {p : Char → Bool} {c : Char}
    (h : some (c :: (cs ++ q).takeWhile p, (cs ++ q).dropWhile p) = some (l, rest ++ q)) :
    some (c :: cs.takeWhile p, cs.dropWhile p) = some (l, rest) := by
  obtain ⟨rfl, hrest⟩ := Prod.mk.inj (Option.some.inj h)
  obtain ⟨htake, hdrop⟩ := dropWhile_of_append hrest
  rw [htake, hdrop]

theorem blank_comment (cs : List Char) :
    blank ('%' :: cs) = some ('%' :: cs.takeWhile (· != '\n'), cs.dropWhile (· != '\n')) := rfl

theorem blank_cons {c : Char} (h : c ≠ '%') (cs : List Char) :
    blank (c :: cs) =
      if isBlank c then some (c :: cs.takeWhile isBlank, cs.dropWhile isBlank) else none := by
  unfold blank
  split
  next heq => cases heq; exact absurd rfl h
  next heq => cases heq; rfl
  next heq => cases heq

theorem cuts_blank : Cuts blank where
  found := by
    intro cs q l rest h
    obtain ⟨-, hne⟩ := splits_blank.append_ne_nil h
    cases cs with
    | nil => exact absurd rfl hne
    | cons c cs =>
      rw [List.cons_append] at h
      by_cases hc : c = '%'
      · rw [hc, blank_comment] at h ⊢
        exact row_of_append h
      · rw [blank_cons hc] at h ⊢
        split at h
        next hblank => rw [if_pos hblank]; exact row_of_append h
        next => cases h
  missing := by
    intro cs q h
    cases cs with
    | nil => rfl
    | cons c cs =>
      rw [List.cons_append] at h
      by_cases hc : c = '%'
      · rw [hc, blank_comment] at h
        cases h
      · rw [blank_cons hc] at h ⊢
        split at h
        next => cases h
        next hblank => rw [if_neg hblank]

theorem cuts_word (isFirst : Char → Bool) : Cuts (word isFirst) where
  found := by
    intro cs q l rest h
    obtain ⟨-, hne⟩ := (splits_word isFirst).append_ne_nil h
    cases cs with
    | nil => exact absurd rfl hne
    | cons c cs =>
      rw [List.cons_append, word] at h
      rw [word]
      split at h
      next hfirst => rw [if_pos hfirst]; exact row_of_append h
      next => cases h
  missing := by
    intro cs q h
    cases cs with
    | nil => rfl
    | cons c cs =>
      rw [List.cons_append, word] at h
      rw [word]
      split at h
      next => cases h
      next hfirst => rw [if_neg hfirst]

/-! ## Words in quotation marks -/

theorem eq_cons_of_between {mark : Char} (h : between mark cs = some (l, rest)) :
    ∃ cs', cs = mark :: cs' := by
  cases cs with
  | nil => cases h
  | cons c cs =>
    rw [between] at h
    split at h
    next hc => exact ⟨cs, by rw [beq_iff_eq.1 hc]⟩
    next => cases h

section

variable {mark : Char} (hmark : mark ≠ '\\')

theorem untilMark_cons {c : Char} (h : c ≠ '\\') (cs : List Char) :
    untilMark mark (c :: cs) =
      if c == mark then some ([], cs) else (untilMark mark cs).map fun r => (c :: r.1, r.2) := by
  have hback : (c == '\\') = false := by simpa using h
  rw [untilMark]
  · simp only [hback, Bool.false_eq_true, if_false]
  · rintro c' cs' rfl
    exact absurd rfl h

include hmark

/-- What stands before a mark does not depend on what stands after it. -/
theorem untilMark_append (h : untilMark mark cs = some (l, rest)) (q : List Char) :
    untilMark mark (cs ++ q) = some (l, rest ++ q) := by
  fun_induction untilMark mark cs generalizing l rest with
  | case1 => cases h
  | case2 c cs ih =>
    obtain ⟨r, hr, heq⟩ := Option.map_eq_some_iff.1 h
    cases heq
    rw [List.cons_append, List.cons_append, untilMark, ih hr]
    rfl
  | case3 c cs _ hc =>
    cases h
    have hne : c ≠ '\\' := fun heq => hmark (heq ▸ (beq_iff_eq.1 hc).symm)
    rw [List.cons_append, untilMark_cons hne, if_pos hc]
  | case4 => cases h
  | case5 c cs _ hc hback ih =>
    obtain ⟨r, hr, heq⟩ := Option.map_eq_some_iff.1 h
    cases heq
    rw [List.cons_append, untilMark_cons (by simpa using hback), if_neg hc, ih hr]
    rfl

theorem untilMark_of_append (h : untilMark mark (cs ++ q) = some (l, rest ++ q)) :
    untilMark mark cs = some (l, rest) := by
  fun_induction untilMark mark cs generalizing l rest with
  | case1 =>
    have hlength := congrArg List.length (untilMark_eq h)
    simp only [List.nil_append, List.length_append, List.length_cons] at hlength
    omega
  | case2 c cs ih =>
    rw [List.cons_append, List.cons_append, untilMark] at h
    obtain ⟨⟨l', rest'⟩, hr, heq⟩ := Option.map_eq_some_iff.1 h
    cases heq
    rw [ih hr]
    rfl
  | case3 c cs _ hc =>
    have hne : c ≠ '\\' := fun heq => hmark (heq ▸ (beq_iff_eq.1 hc).symm)
    rw [List.cons_append, untilMark_cons hne, if_pos hc] at h
    obtain ⟨rfl, hrest⟩ := Prod.mk.inj (Option.some.inj h)
    rw [List.append_cancel_right hrest]
  | case4 c cs hno hc hback =>
    obtain rfl := beq_iff_eq.1 hback
    -- Only the backslash is left, so the mark is behind it.
    cases cs with
    | cons c cs => exact absurd rfl (hno c cs rfl)
    | nil =>
      cases q with
      | nil => simp [untilMark, hc] at h
      | cons d q =>
        rw [List.cons_append, List.nil_append, untilMark] at h
        obtain ⟨⟨l', rest'⟩, hr, heq⟩ := Option.map_eq_some_iff.1 h
        have hrest : rest' = rest ++ d :: q := (Prod.mk.inj heq).2
        have hlength := congrArg List.length (untilMark_eq hr)
        simp only [hrest, List.length_append, List.length_cons] at hlength
        omega
  | case5 c cs _ hc hback ih =>
    rw [List.cons_append, untilMark_cons (by simpa using hback), if_neg hc] at h
    obtain ⟨⟨l', rest'⟩, hr, heq⟩ := Option.map_eq_some_iff.1 h
    cases heq
    rw [ih hr]
    rfl

theorem between_append (h : between mark cs = some (l, rest)) (q : List Char) :
    between mark (cs ++ q) = some (l, rest ++ q) := by
  cases cs with
  | nil => cases h
  | cons c cs =>
    rw [between] at h
    rw [List.cons_append, between]
    split at h
    next hc =>
      obtain ⟨r, hr, heq⟩ := Option.map_eq_some_iff.1 h
      cases heq
      rw [if_pos hc, untilMark_append hmark hr]
      rfl
    next => cases h

/-- A text that is quoted is quoted in every text that goes on longer, and cut short it is not. -/
theorem cuts_between : Cuts (between mark) where
  found := by
    intro cs q l rest h
    obtain ⟨-, hne⟩ := (splits_between mark).append_ne_nil h
    cases cs with
    | nil => exact absurd rfl hne
    | cons c cs =>
      rw [List.cons_append, between] at h
      rw [between]
      split at h
      next hc =>
        obtain ⟨⟨l', rest'⟩, hr, heq⟩ := Option.map_eq_some_iff.1 h
        cases heq
        rw [if_pos hc, untilMark_of_append hmark hr]
        rfl
      next => cases h
  missing := by
    intro cs q h
    cases hcs : between mark cs with
    | none => rfl
    | some r =>
      rw [between_append hmark hcs] at h
      cases h

end

/-! ## Numbers -/

theorem digits_eq_some : digits cs = some (l, rest) ↔
    l = cs.takeWhile isDigit ∧ rest = cs.dropWhile isDigit ∧ l ≠ [] := by
  rw [digits]
  cases cs.takeWhile isDigit with
  | nil => grind
  | cons d ds => grind

theorem digits_eq_none : digits cs = none ↔ cs.takeWhile isDigit = [] := by
  rw [digits]
  cases cs.takeWhile isDigit with
  | nil => simp
  | cons d ds => simp

theorem cuts_digits : Cuts digits where
  found := by
    intro cs q l rest h
    obtain ⟨rfl, hrest, hne⟩ := digits_eq_some.1 h
    obtain ⟨htake, hdrop⟩ := dropWhile_of_append hrest.symm
    exact digits_eq_some.2 ⟨htake.symm, hdrop.symm, hne⟩
  missing := by
    intro cs q h
    rw [digits_eq_none] at h ⊢
    cases cs with
    | nil => rfl
    | cons c cs =>
      cases hc : isDigit c with
      | true => simp [hc] at h
      | false => simp [hc]

theorem signed_eq {scan : Scanner} {c : Char} (cs : List Char) :
    signed scan (c :: cs) =
      if c = '+' ∨ c = '-' then (scan cs).map fun r => (c :: r.1, r.2) else scan (c :: cs) := by
  unfold signed
  split
  next heq => cases heq; rfl
  next heq => cases heq; rfl
  next hplus hminus =>
    rw [if_neg]
    rintro (rfl | rfl)
    · exact hplus cs rfl
    · exact hminus cs rfl

theorem cuts_signed {scan : Scanner} (hsplits : Splits scan) (hscan : Cuts scan) :
    Cuts (signed scan) where
  found := by
    intro cs q l rest h
    obtain ⟨-, hne⟩ := (splits_signed hsplits).append_ne_nil h
    cases cs with
    | nil => exact absurd rfl hne
    | cons c cs =>
      rw [List.cons_append, signed_eq] at h
      rw [signed_eq]
      split at h
      next hc =>
        obtain ⟨⟨l', rest'⟩, hr, heq⟩ := Option.map_eq_some_iff.1 h
        cases heq
        rw [if_pos hc, hscan.found hr]
        rfl
      next hc =>
        rw [if_neg hc]
        exact hscan.found h
  missing := by
    intro cs q h
    cases cs with
    | nil => exact (splits_signed hsplits).nil
    | cons c cs =>
      rw [List.cons_append, signed_eq] at h
      rw [signed_eq]
      split at h
      next hc => rw [if_pos hc, hscan.missing (Option.map_eq_none_iff.1 h)]; rfl
      next hc => rw [if_neg hc]; exact hscan.missing h

theorem cuts_integer : Cuts integer := cuts_signed splits_digits cuts_digits

theorem exponent_eq {c : Char} (cs : List Char) :
    exponent (c :: cs) =
      if c = 'e' ∨ c = 'E' then (integer cs).map fun r => (c :: r.1, r.2) else none := by
  unfold exponent
  split
  next heq => cases heq; rfl
  next heq => cases heq; rfl
  next hsmall hlarge =>
    rw [if_neg]
    rintro (rfl | rfl)
    · exact hsmall cs rfl
    · exact hlarge cs rfl

theorem cuts_exponent : Cuts exponent where
  found := by
    intro cs q l rest h
    obtain ⟨-, hne⟩ := splits_exponent.append_ne_nil h
    cases cs with
    | nil => exact absurd rfl hne
    | cons c cs =>
      rw [List.cons_append, exponent_eq] at h
      rw [exponent_eq]
      split at h
      next hc =>
        obtain ⟨⟨l', rest'⟩, hr, heq⟩ := Option.map_eq_some_iff.1 h
        obtain ⟨rfl, rfl⟩ := Prod.mk.inj heq
        rw [if_pos hc, cuts_integer.found hr]
        rfl
      next => cases h
  missing := by
    intro cs q h
    cases cs with
    | nil => rfl
    | cons c cs =>
      rw [List.cons_append, exponent_eq] at h
      rw [exponent_eq]
      split at h
      next hc => rw [if_pos hc, cuts_integer.missing (Option.map_eq_none_iff.1 h)]; rfl
      next hc => rw [if_neg hc]

theorem cuts_fraction : Cuts fraction where
  found := by
    intro cs q l rest h
    rw [fraction] at h
    split at h
    next => cases h
    next ds rest' hds =>
      split at h
      next es rest'' hes =>
        obtain ⟨rfl, rfl⟩ := Prod.mk.inj (Option.some.inj h)
        obtain ⟨rfl, -⟩ := splits_exponent _ _ _ hes
        rw [← List.append_assoc] at hds hes
        rw [fraction, cuts_digits.found hds]
        simp only [cuts_exponent.found hes]
      next hes =>
        obtain ⟨rfl, rfl⟩ := Prod.mk.inj (Option.some.inj h)
        rw [fraction, cuts_digits.found hds]
        simp only [cuts_exponent.missing hes]
  missing := by
    intro cs q h
    have hds : digits (cs ++ q) = none := by
      rw [fraction] at h
      split at h
      next hds => exact hds
      next => split at h <;> cases h
    rw [fraction, cuts_digits.missing hds]

theorem decimal_eq_some : decimal cs = some (l, rest) ↔
    ∃ ds fs mid, digits cs = some (ds, '.' :: mid) ∧ fraction mid = some (fs, rest) ∧
      l = ds ++ '.' :: fs := by
  rw [decimal]
  split
  next ds mid hds =>
    simp only [Option.map_eq_some_iff, Prod.mk.injEq, Prod.exists]
    grind
  next hds => grind

/-- Digits with another character after them end there. -/
theorem digits_append_of_ne_nil (h : digits cs = some (l, rest)) (hrest : rest ≠ [])
    (q : List Char) : digits (cs ++ q) = some (l, rest ++ q) := by
  obtain ⟨rfl, rfl, hne⟩ := digits_eq_some.1 h
  obtain ⟨htake, hdrop⟩ := takeWhile_append_of_ne_nil hrest q
  exact digits_eq_some.2 ⟨htake.symm, hdrop.symm, hne⟩

theorem cuts_decimal : Cuts decimal where
  found := by
    intro cs q l rest h
    obtain ⟨ds, fs, mid, hds, hfs, rfl⟩ := decimal_eq_some.1 h
    obtain ⟨rfl, -⟩ := splits_fraction _ _ _ hfs
    rw [← List.append_assoc] at hfs
    refine decimal_eq_some.2 ⟨ds, fs, fs ++ rest, cuts_digits.found (q := q) ?_,
      cuts_fraction.found hfs, rfl⟩
    rw [hds]
    simp
  missing := by
    intro cs q h
    rw [Option.eq_none_iff_forall_ne_some] at h ⊢
    rintro ⟨l, rest⟩ hcs
    obtain ⟨ds, fs, mid, hds, hfs, rfl⟩ := decimal_eq_some.1 hcs
    -- The point ends the digits, so more text can only make the fraction longer.
    have hds' := digits_append_of_ne_nil hds (List.cons_ne_nil _ _) q
    cases hfs' : fraction (mid ++ q) with
    | none => rw [cuts_fraction.missing hfs'] at hfs; cases hfs
    | some r => exact h _ (decimal_eq_some.2 ⟨ds, r.1, mid ++ q, hds', hfs', rfl⟩)

theorem cuts_float : Cuts float := cuts_signed splits_decimal cuts_decimal

/-! ## Marks -/

theorem punct_eq_some : punct cs = some (l, rest) ↔
    (∃ a b, (a, b) ∈ twoCharMarks ∧ cs = a :: b :: rest ∧ l = [a, b]) ∨
      (∃ a, a ∈ oneCharMarks ∧ cs = a :: rest ∧ l = [a] ∧
        ∀ b ∈ rest.head?, (a, b) ∉ twoCharMarks) := by
  unfold punct
  split
  next a b cs => split <;> grind
  next a => split <;> grind
  next => grind

theorem cuts_punct : Cuts punct where
  found := by
    intro cs q l rest h
    obtain ⟨rfl, -⟩ := splits_punct.append_ne_nil h
    rw [punct_eq_some] at h ⊢
    rcases h with ⟨a, b, hab, -, rfl⟩ | ⟨a, ha, -, rfl, hnext⟩
    · exact .inl ⟨a, b, hab, rfl, rfl⟩
    · refine .inr ⟨a, ha, rfl, rfl, fun b hb => hnext b ?_⟩
      cases rest with
      | nil => cases hb
      | cons c rest => exact hb
  missing := by
    intro cs q h
    rw [Option.eq_none_iff_forall_ne_some] at h ⊢
    rintro ⟨l, rest⟩ hcs
    rcases punct_eq_some.1 hcs with ⟨a, b, hab, rfl, rfl⟩ | ⟨a, ha, rfl, rfl, -⟩
    · exact h _ (punct_eq_some.2 (.inl ⟨a, b, hab, rfl, rfl⟩))
    · cases hnext : (rest ++ q).head? with
      | none => exact h ([a], rest ++ q) (punct_eq_some.2 (.inr ⟨a, ha, rfl, rfl, by simp [hnext]⟩))
      | some b =>
        obtain ⟨tail, htail⟩ := List.head?_eq_some_iff.1 hnext
        by_cases hab : (a, b) ∈ twoCharMarks
        · exact h ([a, b], tail) (punct_eq_some.2 (.inl ⟨a, b, hab, by simp [htail], rfl⟩))
        · refine h ([a], rest ++ q) (punct_eq_some.2 (.inr ⟨a, ha, rfl, rfl, ?_⟩))
          rw [hnext]
          rintro b' hb'
          cases hb'
          exact hab

/-! ## Characters -/

/-- The spelling of an escape in a character, and the text after it. -/
inductive Escaping : List Char → List Char → Prop
  | octal {ds rest : List Char} : Escape.octalRun (ds ++ rest) = ds → ds ≠ [] → Escaping ds rest
  | braced {ds rest : List Char} :
      (∀ d ∈ ds, isHex d = true) → ds ≠ [] → Escaping ('x' :: '{' :: ds ++ ['}']) rest
  | control (c : Char) {rest : List Char} : Escaping ['^', c] rest
  | single {c : Char} {rest : List Char} : Escape.octalRun (c :: rest) = [] →
      (c = '^' → rest = []) →
      (∀ ds tail, c :: rest = 'x' :: '{' :: ds ++ '}' :: tail →
        (∀ d ∈ ds, isHex d = true) → ds = []) →
      Escaping [c] rest

/-- Braces with digits between them are read as such. -/
theorem readBraced_of_digits {ds : List Char} (hds : ∀ d ∈ ds, isHex d = true) (hne : ds ≠ [])
    (rest : List Char) : Escape.readBraced (ds ++ '}' :: rest) = (.braced ds, rest) := by
  have hbrace : isHex '}' = false := rfl
  cases ds with
  | nil => exact absurd rfl hne
  | cons d ds =>
    rw [Escape.readBraced, List.takeWhile_append_of_pos hds, List.dropWhile_append_of_pos hds]
    simp [hbrace]

theorem readBraced_cases (cs : List Char) :
    (∃ ds rest, (∀ d ∈ ds, isHex d = true) ∧ ds ≠ [] ∧ cs = ds ++ '}' :: rest ∧
      Escape.readBraced cs = (.braced ds, rest)) ∨
    ((∀ ds tail, cs = ds ++ '}' :: tail → (∀ d ∈ ds, isHex d = true) → ds = []) ∧
      Escape.readBraced cs = (.single 'x', '{' :: cs)) := by
  by_cases h : ∃ ds rest, (∀ d ∈ ds, isHex d = true) ∧ ds ≠ [] ∧ cs = ds ++ '}' :: rest
  · obtain ⟨ds, rest, hds, hne, rfl⟩ := h
    exact .inl ⟨ds, rest, hds, hne, rfl, readBraced_of_digits hds hne rest⟩
  · have hsplit := List.takeWhile_append_dropWhile (p := isHex) (l := cs)
    have hall : ∀ d ∈ cs.takeWhile isHex, isHex d = true := List.all_eq_true.1 List.all_takeWhile
    refine .inr ⟨fun ds tail hcs hds => ?_, ?_⟩
    · exact Classical.byContradiction fun hne => h ⟨ds, tail, hds, hne, hcs⟩
    · rw [Escape.readBraced]
      split
      next d ds rest htake hdrop =>
        rw [htake, hdrop] at hsplit
        rw [htake] at hall
        exact absurd ⟨d :: ds, rest, hall, List.cons_ne_nil d ds, hsplit.symm⟩ h
      next => rfl

theorem charEscape_of_octal {d : Char} {ds : List Char} (h : Escape.octalRun cs = d :: ds) :
    charEscape cs = some (d :: ds, cs.drop (ds.length + 1)) := by
  rw [charEscape, Escape.read?, h]
  rfl

/-- An escape that is not octal. -/
theorem charEscape_cons {c : Char} (h : Escape.octalRun (c :: cs) = []) :
    (∃ ds rest, (∀ d ∈ ds, isHex d = true) ∧ ds ≠ [] ∧ c :: cs = 'x' :: '{' :: ds ++ '}' :: rest ∧
      charEscape (c :: cs) = some ('x' :: '{' :: ds ++ ['}'], rest)) ∨
    (∃ d rest, c = '^' ∧ cs = d :: rest ∧ charEscape (c :: cs) = some (['^', d], rest)) ∨
    ((c = '^' → cs = []) ∧
      (∀ ds tail, c :: cs = 'x' :: '{' :: ds ++ '}' :: tail →
        (∀ d ∈ ds, isHex d = true) → ds = []) ∧
      charEscape (c :: cs) = some ([c], cs)) := by
  rw [charEscape, Escape.read?, h]
  by_cases hx : c = 'x'
  · subst hx
    rcases cs with _ | ⟨a, cs⟩
    · exact .inr (.inr ⟨fun _ => rfl, fun ds tail heq => by simp at heq, rfl⟩)
    by_cases ha : a = '{'
    · subst ha
      rcases readBraced_cases cs with ⟨ds, rest, hds, hne, rfl, hread⟩ | ⟨hno, hread⟩
      · exact .inl ⟨ds, rest, hds, hne, rfl, by simp only [Escape.readOther?, hread]; rfl⟩
      · refine .inr (.inr ⟨fun h => by simp at h, fun ds tail heq => ?_, ?_⟩)
        · exact hno ds tail (by simpa using heq)
        · simp only [Escape.readOther?, hread]
          rfl
    · refine .inr (.inr ⟨fun h => by simp at h, fun ds tail heq => ?_, ?_⟩)
      · simp [ha] at heq
      · rcases cs with _ | ⟨b, cs⟩
        · simp [Escape.readOther?, Escape.spelling, ha]
        · cases hpair : isHex a && isHex b <;> simp [Escape.readOther?, Escape.spelling, hpair]
  · by_cases hcaret : c = '^'
    · subst hcaret
      rcases cs with _ | ⟨d, cs⟩
      · exact .inr (.inr ⟨fun _ => rfl, fun ds tail heq => by simp at heq, rfl⟩)
      · exact .inr (.inl ⟨d, cs, rfl, rfl, rfl⟩)
    · refine .inr (.inr ⟨fun h => absurd h hcaret, fun ds tail heq => ?_, ?_⟩)
      · simp [hx] at heq
      · simp [Escape.readOther?, Escape.spelling, hx, hcaret]

/-- An escape is found where it is spelled. -/
theorem charEscape_eq_some : charEscape cs = some (l, rest) ↔ cs = l ++ rest ∧ Escaping l rest := by
  constructor
  · intro h
    obtain ⟨rfl, hne⟩ := splits_charEscape _ _ _ h
    refine ⟨rfl, ?_⟩
    cases hoctal : Escape.octalRun (l ++ rest) with
    | cons d ds =>
      rw [charEscape_of_octal hoctal] at h
      obtain ⟨rfl, -⟩ := Prod.mk.inj (Option.some.inj h)
      exact .octal hoctal hne
    | nil =>
      cases l with
      | nil => exact absurd rfl hne
      | cons c l =>
        rw [List.cons_append] at hoctal h
        rcases charEscape_cons hoctal with ⟨ds, rest', hds, hds', -, hread⟩ |
            ⟨d, rest', -, -, hread⟩ | ⟨hcaret, hbraced, hread⟩
        · rw [hread] at h
          obtain ⟨hl, -⟩ := Prod.mk.inj (Option.some.inj h)
          rw [← hl]
          exact .braced hds hds'
        · rw [hread] at h
          obtain ⟨hl, -⟩ := Prod.mk.inj (Option.some.inj h)
          rw [← hl]
          exact .control d
        · rw [hread] at h
          obtain ⟨hl, hrest⟩ := Prod.mk.inj (Option.some.inj h)
          rw [hrest] at hoctal hcaret hbraced
          rw [← hl]
          exact .single hoctal hcaret hbraced
  · rintro ⟨rfl, h⟩
    cases h with
    | octal hoctal hne =>
      cases l with
      | nil => exact absurd rfl hne
      | cons d ds =>
        rw [charEscape_of_octal hoctal]
        simp
    | @braced ds _ hds hne =>
      have hread := readBraced_of_digits hds hne rest
      simp only [List.cons_append, List.append_assoc, List.nil_append]
      have hoctal : Escape.octalRun ('x' :: '{' :: (ds ++ '}' :: rest)) = [] := by
        simp [Escape.octalRun, isOctal]
      rw [charEscape, Escape.read?, hoctal]
      simp [Escape.readOther?, hread, Escape.spelling]
    | control c =>
      rw [charEscape, Escape.read?, show Escape.octalRun (['^', c] ++ rest) = [] from by
        simp [Escape.octalRun, isOctal]]
      rfl
    | @single c _ hoctal hcaret hbraced =>
      rcases charEscape_cons hoctal with ⟨ds, rest', hds, hne, heq, -⟩ | ⟨d, rest', hc, hrest, -⟩ |
          ⟨-, -, hread⟩
      · exact absurd (hbraced ds rest' heq hds) hne
      · rw [hcaret hc] at hrest
        cases hrest
      · exact hread

theorem octalRun_of_append (h : Escape.octalRun (l ++ rest ++ q) = l) :
    Escape.octalRun (l ++ rest) = l := by
  rw [Escape.octalRun, List.take_append] at h
  have hlength : l.length ≤ ((l ++ rest).take 3).length := by
    have hle := congrArg List.length h
    have hprefix := ( List.takeWhile_prefix isOctal (l := (l ++ rest).take 3 ++
      q.take (3 - (l ++ rest).length))).length_le
    simp only [List.length_append, List.length_take] at hle hprefix ⊢
    omega
  have hsplit := List.takeWhile_append_dropWhile (p := isOctal)
    (l := (l ++ rest).take 3 ++ q.take (3 - (l ++ rest).length))
  have hdrop := congrArg (List.drop l.length) hsplit
  rw [h, List.drop_left, List.drop_append_of_le_length hlength] at hdrop
  rw [Escape.octalRun, (dropWhile_of_append hdrop).1, h]

theorem charEscape_ne_none (c : Char) (cs : List Char) : charEscape (c :: cs) ≠ none := by
  cases hoctal : Escape.octalRun (c :: cs) with
  | cons d ds => simp [charEscape_of_octal hoctal]
  | nil =>
    rcases charEscape_cons hoctal with ⟨ds, rest, -, -, -, hread⟩ | ⟨d, rest, -, -, hread⟩ |
        ⟨-, -, hread⟩
    all_goals simp [hread]

theorem cuts_charEscape : Cuts charEscape where
  found := by
    intro cs q l rest h
    obtain ⟨hcs, hescape⟩ := charEscape_eq_some.1 h
    rw [← List.append_assoc] at hcs
    obtain rfl := List.append_cancel_right hcs
    refine charEscape_eq_some.2 ⟨rfl, ?_⟩
    cases hescape with
    | octal hoctal hne => exact .octal (octalRun_of_append (by rwa [List.append_assoc])) hne
    | braced hds hne => exact .braced hds hne
    | control c => exact .control c
    | single hoctal hcaret hbraced =>
      -- That nothing closes a brace in the longer text says so of the shorter one.
      refine .single (octalRun_of_append (l := []) hoctal)
        (fun hc => (List.append_eq_nil_iff.1 (hcaret hc)).1) fun ds tail heq => ?_
      refine hbraced ds (tail ++ q) ?_
      rw [← List.cons_append, heq]
      simp
  missing := by
    intro cs q h
    cases cs with
    | nil => rfl
    | cons c cs => exact absurd h (charEscape_ne_none c (cs ++ q))

/-- A character is spelled in one of two ways. -/
theorem char_eq_some : char cs = some (l, rest) ↔
    (∃ es, charEscape (es ++ rest) = some (es, rest) ∧ cs = '$' :: '\\' :: es ++ rest ∧
      l = '$' :: '\\' :: es) ∨
    (∃ c, c ≠ '\\' ∧ cs = '$' :: c :: rest ∧ l = ['$', c]) := by
  unfold char
  split
  next cs =>
    simp only [Option.map_eq_some_iff, Prod.mk.injEq]
    constructor
    · rintro ⟨⟨es, tail⟩, hes, rfl, rfl⟩
      obtain ⟨rfl, -⟩ := splits_charEscape _ _ _ hes
      exact .inl ⟨es, hes, rfl, rfl⟩
    · rintro (⟨es, hes, hcs, rfl⟩ | ⟨c, hc, hcs, -⟩)
      · obtain rfl : cs = es ++ rest := by simpa using hcs
        exact ⟨_, hes, rfl, rfl⟩
      · simp [Ne.symm hc] at hcs
  next c cs hne =>
    have hc : c ≠ '\\' := fun hc => hne hc
    grind
  next h₁ h₂ => grind

theorem cuts_char : Cuts char where
  found := by
    intro cs q l rest h
    obtain ⟨rfl, -⟩ := splits_char.append_ne_nil h
    rw [char_eq_some] at h ⊢
    rcases h with ⟨es, hes, -, rfl⟩ | ⟨c, hc, -, rfl⟩
    · rw [← List.append_assoc] at hes
      exact .inl ⟨es, cuts_charEscape.found hes, rfl, rfl⟩
    · exact .inr ⟨c, hc, rfl, rfl⟩
  missing := by
    intro cs q h
    rw [Option.eq_none_iff_forall_ne_some] at h ⊢
    rintro ⟨l, rest⟩ hcs
    rcases char_eq_some.1 hcs with ⟨es, hes, rfl, rfl⟩ | ⟨c, hc, rfl, rfl⟩
    · obtain ⟨-, hne⟩ := splits_charEscape _ _ _ hes
      cases hlong : charEscape (es ++ rest ++ q) with
      | none => simp [cuts_charEscape.missing hlong] at hes
      | some r =>
        obtain ⟨hsplit, -⟩ := splits_charEscape _ _ _ hlong
        rw [hsplit] at hlong
        refine h ('$' :: '\\' :: r.1, r.2) (char_eq_some.2 (.inl ⟨r.1, hlong, ?_, rfl⟩))
        simp only [List.cons_append, hsplit]
    · exact h _ (char_eq_some.2 (.inr ⟨c, hc, rfl, rfl⟩))

theorem cuts_ofKind : ∀ k, Cuts (ofKind k)
  | .atom => cuts_between (by decide)
  | .string => cuts_between (by decide)
  | .char => cuts_char
  | .float => cuts_float
  | .integer => cuts_integer
  | .var => cuts_word _
  | .name => cuts_word _
  | .punct => cuts_punct

/-! ## The characters of a lexeme -/

/-- The characters of numbers. -/
def isNumeral (c : Char) : Bool := isDigit c || ['+', '-', '.', 'e', 'E'].contains c

/-- All that the scanner takes are characters of numbers. -/
def Numeric (scan : Scanner) : Prop :=
  ∀ ⦃cs l rest⦄, scan cs = some (l, rest) → ∀ c ∈ l, isNumeral c = true

theorem numeric_digits : Numeric digits := by
  intro cs l rest h c hc
  obtain ⟨rfl, -, -⟩ := digits_eq_some.1 h
  simp [isNumeral, of_mem_takeWhile hc]

theorem numeric_signed {scan : Scanner} (hscan : Numeric scan) : Numeric (signed scan) := by
  intro cs l rest h
  cases cs with
  | nil => exact hscan h
  | cons a cs =>
    rw [signed_eq] at h
    split at h
    next ha =>
      obtain ⟨r, hr, heq⟩ := Option.map_eq_some_iff.1 h
      obtain ⟨rfl, -⟩ := Prod.mk.inj heq
      refine List.forall_mem_cons.2 ⟨?_, hscan hr⟩
      rcases ha with rfl | rfl <;> rfl
    next => exact hscan h

theorem numeric_exponent : Numeric exponent := by
  intro cs l rest h
  cases cs with
  | nil => cases h
  | cons a cs =>
    rw [exponent_eq] at h
    split at h
    next ha =>
      obtain ⟨r, hr, heq⟩ := Option.map_eq_some_iff.1 h
      obtain ⟨rfl, -⟩ := Prod.mk.inj heq
      refine List.forall_mem_cons.2 ⟨?_, numeric_signed numeric_digits hr⟩
      rcases ha with rfl | rfl <;> rfl
    next => cases h

theorem numeric_fraction : Numeric fraction := by
  intro cs l rest h
  rw [fraction] at h
  split at h
  next => cases h
  next ds rest' hds =>
    split at h
    next es rest'' hes =>
      obtain ⟨rfl, -⟩ := Prod.mk.inj (Option.some.inj h)
      exact List.forall_mem_append.2 ⟨numeric_digits hds, numeric_exponent hes⟩
    next =>
      obtain ⟨rfl, -⟩ := Prod.mk.inj (Option.some.inj h)
      exact numeric_digits hds

theorem numeric_decimal : Numeric decimal := by
  intro cs l rest h
  obtain ⟨ds, fs, mid, hds, hfs, rfl⟩ := decimal_eq_some.1 h
  refine List.forall_mem_append.2 ⟨numeric_digits hds, List.forall_mem_cons.2 ⟨rfl, ?_⟩⟩
  exact numeric_fraction hfs

/-- The characters of a character before the last one. -/
def isEscape (c : Char) : Bool := isOctal c || isHex c || ['$', '\\', 'x', '{', '^'].contains c

theorem Escaping.mem_dropLast (h : Escaping l rest) : ∀ c ∈ l.dropLast, isEscape c = true := by
  cases h with
  | octal hoctal hne =>
    intro c hc
    have hmem : c ∈ Escape.octalRun (l ++ rest) := by
      rw [hoctal]
      exact List.dropLast_subset l hc
    simp [isEscape, of_mem_takeWhile hmem]
  | @braced ds _ hds hne =>
    rw [List.dropLast_concat]
    refine List.forall_mem_cons.2 ⟨rfl, List.forall_mem_cons.2 ⟨rfl, fun d hd => ?_⟩⟩
    simp [isEscape, hds d hd]
  | control d =>
    intro c hc
    obtain rfl : c = '^' := by simpa using hc
    rfl
  | single => simp

theorem escape_of_char (h : char cs = some (l, rest)) : ∀ c ∈ l.dropLast, isEscape c = true := by
  rcases char_eq_some.1 h with ⟨es, hes, -, rfl⟩ | ⟨d, -, -, rfl⟩
  · obtain ⟨hne, hescape⟩ := charEscape_eq_some.1 hes
    have hes' : es ≠ [] := (splits_charEscape _ _ _ hes).2
    rw [List.dropLast_cons_of_ne_nil (List.cons_ne_nil _ _), List.dropLast_cons_of_ne_nil hes']
    exact List.forall_mem_cons.2 ⟨rfl, List.forall_mem_cons.2 ⟨rfl, hescape.mem_dropLast⟩⟩
  · intro c hc
    obtain rfl : c = '$' := by simpa using hc
    rfl

/-- The first characters of the marks of two characters. -/
theorem mark_of_punct (h : punct cs = some (l, rest)) :
    ∀ c ∈ l.dropLast, c ∈ twoCharMarks.map Prod.fst := by
  rcases punct_eq_some.1 h with ⟨a, b, hab, -, rfl⟩ | ⟨a, -, -, rfl, -⟩
  · intro c hc
    obtain rfl : c = a := by simpa using hc
    exact List.mem_map_of_mem hab
  · simp

theorem isWordChar_of_word {isFirst : Char → Bool} (h : word isFirst cs = some (l, rest)) :
    ∀ c ∈ l.tail, isWordChar c = true := by
  unfold word at h
  split at h
  next =>
    split at h
    next =>
      obtain ⟨rfl, -⟩ := Prod.mk.inj (Option.some.inj h)
      exact fun c hc => of_mem_takeWhile hc
    next => cases h
  next => cases h

/-- A word that is cut short is a word. -/
theorem word_of_append {isFirst : Char → Bool} (h : word isFirst (cs ++ q) = some (l, rest))
    (hne : cs ≠ []) (hlength : cs.length ≤ l.length) : word isFirst cs = some (cs, []) := by
  cases cs with
  | nil => exact absurd rfl hne
  | cons c cs =>
    rw [List.cons_append, word] at h
    rw [word]
    split at h
    next hfirst =>
      obtain ⟨rfl, -⟩ := Prod.mk.inj (Option.some.inj h)
      obtain ⟨htake, hdrop⟩ := takeWhile_of_length_le (Nat.le_of_succ_le_succ hlength)
      rw [if_pos hfirst, htake, hdrop]
    next => cases h

theorem blank_of_append (h : blank (cs ++ q) = some (l, rest)) (hne : cs ≠ [])
    (hlength : cs.length ≤ l.length) : blank cs = some (cs, []) := by
  cases cs with
  | nil => exact absurd rfl hne
  | cons c cs =>
    rw [List.cons_append] at h
    by_cases hc : c = '%'
    · rw [hc, blank_comment] at h
      obtain ⟨rfl, -⟩ := Prod.mk.inj (Option.some.inj h)
      obtain ⟨htake, hdrop⟩ := takeWhile_of_length_le (Nat.le_of_succ_le_succ hlength)
      rw [hc, blank_comment, htake, hdrop]
    · rw [blank_cons hc] at h
      split at h
      next hblank =>
        obtain ⟨rfl, -⟩ := Prod.mk.inj (Option.some.inj h)
        obtain ⟨htake, hdrop⟩ := takeWhile_of_length_le (Nat.le_of_succ_le_succ hlength)
        rw [blank_cons hc, if_pos hblank, htake, hdrop]
      next => cases h

end Scanner

end CallGraph
