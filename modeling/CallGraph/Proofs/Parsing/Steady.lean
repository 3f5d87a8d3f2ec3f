import CallGraph.Proofs.Parsing.Completeness
import CallGraph.Proofs.Spelling

/-!
What the parsers do with tokens that they do not need. A parser that succeeds and leaves tokens over
does the same if more tokens follow, at every level of nesting, so a module that is complete is
followed by nothing. A parser takes keywords, marks and short integers only. If it fails at a token,
that is one of its tokens, and a conversion fails for no reason but a long integer.
-/

namespace CallGraph

open CallGraph.Parser

/-- The symbol is a mark or a keyword of the grammar. -/
def IsSymbol (s : String) : Prop := s ∈ Word.marks ∨ s ∈ Word.keywords

instance (s : String) : Decidable (IsSymbol s) := inferInstanceAs (Decidable (_ ∨ _))

/-- A token that the grammar has a use for. -/
structure Token.Usable (digits : Nat) (t : Token) : Prop where
  short : t.Short digits
  known : t.kind = .name → IsSymbol t.text

namespace Token

variable {digits : Nat} {t : Token} {s : String}

theorem usable_of_is (h : t.is s) (hs : IsSymbol s) : t.Usable digits := by
  simp only [Token.is, Bool.and_eq_true, beq_iff_eq] at h
  refine ⟨fun hk => ?_, fun _ => h.2 ▸ hs⟩
  rw [hk] at h
  exact absurd h.1 (by decide)

theorem usable_of_kind {k : Kind} (h : t.kind = k) (hk : k ≠ .integer ∧ k ≠ .name) :
    t.Usable digits :=
  ⟨fun hi => absurd (h.symm.trans hi) hk.1, fun hn => absurd (h.symm.trans hn) hk.2⟩

theorem usable_of_integer {n : Int} (h : t.kind = .integer)
    (hn : Numeral.integer digits t.text = .ok n) : t.Usable digits := by
  refine ⟨fun _ => ?_, fun hk => ?_⟩
  · rw [Numeral.integer] at hn
    split at hn
    next => cases hn
    next hle => exact Nat.not_lt.1 hle
  · rw [h] at hk
    cases hk

theorem usable_of_literal? {x : Literal} (h : t.literal? digits = some (.ok x)) :
    t.Usable digits := by
  cases hk : t.kind with
  | integer =>
    simp only [literal?, hk, Option.some.injEq] at h
    cases hn : Numeral.integer digits t.text with
    | error e => simp [hn, Except.map] at h
    | ok n => exact usable_of_integer hk hn
  | atom | string | char | float | var | punct => exact usable_of_kind hk (by decide)
  | name => simp [literal?, hk] at h

/-- The conversion of an integer fails if it is long. -/
theorem long_of_integer {e : ConversionError} (h : t.kind = .integer)
    (he : Numeral.integer digits t.text = .error e) : e = .longNumeral ∧ ¬ t.Short digits := by
  rw [Numeral.integer] at he
  split at he
  next hlt =>
    cases he
    exact ⟨rfl, fun hshort => absurd (hshort h) (Nat.not_le.2 hlt)⟩
  next => cases he

theorem long_of_literal? {e : ConversionError} (h : t.literal? digits = some (.error e)) :
    e = .longNumeral ∧ ¬ t.Short digits := by
  cases hk : t.kind with
  | integer =>
    simp only [literal?, hk, Option.some.injEq] at h
    cases hn : Numeral.integer digits t.text with
    | ok n => simp [hn, Except.map] at h
    | error e' =>
      rw [hn] at h
      cases h
      exact long_of_integer hk hn
  | atom | string | char | float | var | punct | name => simp [literal?, hk] at h

end Token

/-- What can be said of tokens that are not read: the token found is one of them, and if a conversion
fails, a long integer is. -/
def ParseFailure.Blames (digits : Nat) (ts : List Token) : ParseFailure → Prop
  | .unexpected _ found => ∀ t ∈ found, t ∈ ts
  | .tooDeep => True
  | .conversion e => e = .longNumeral ∧ ∃ t ∈ ts, ¬ t.Short digits

theorem ParseFailure.Blames.mono {digits : Nat} {ts us : List Token} {e : ParseFailure}
    (h : e.Blames digits us) (hus : us ⊆ ts) : e.Blames digits ts := by
  cases e with
  | unexpected wanted found => exact fun t ht => hus (h t ht)
  | tooDeep => trivial
  | conversion e =>
    obtain ⟨he, t, ht, hlong⟩ := h
    exact ⟨he, t, hus ht, hlong⟩

namespace Parser

variable {α β : Type} {digits : Nat} {p : Parser α} {f : α → Parser β} {ts more rest : List Token}
  {s : String}

theorem bind_eq_error {e : ParseFailure} :
    (p >>= f) ts = .error e ↔
      p ts = .error e ∨ ∃ x mid, p ts = .ok (x, mid) ∧ f x mid = .error e := by
  change Except.bind (p ts) (fun y => f y.1 y.2) = .error e ↔ _
  cases p ts with
  | error e' => simp [Except.bind]
  | ok y => simp [Except.bind, Prod.ext_iff, and_assoc]

theorem of_expectKind_eq_error {k : Kind} {e : ParseFailure} (h : expectKind k ts = .error e) :
    e = .unexpected (.kind k) ts.head? := by
  cases ts with
  | nil => exact (Except.error.inj h).symm
  | cons t ts =>
    rw [expectKind] at h
    split at h
    next => cases h
    next => exact (Except.error.inj h).symm

theorem blames_head? (wanted : Expectation) (ts : List Token) :
    (ParseFailure.unexpected wanted ts.head?).Blames digits ts :=
  fun _ ht => List.mem_of_mem_head? ht

theorem head?_append (h : ts ≠ []) : (ts ++ more).head? = ts.head? := by
  cases ts with
  | nil => exact absurd rfl h
  | cons t ts => rfl

theorem startsWith_append (h : ts ≠ []) : startsWith s (ts ++ more) = startsWith s ts := by
  cases ts with
  | nil => exact absurd rfl h
  | cons t ts => rfl

theorem startsWithName_append (h : ts ≠ []) :
    startsWithName (ts ++ more) = startsWithName ts := by
  cases ts with
  | nil => exact absurd rfl h
  | cons t ts => rfl

/-! ## Tokens that are taken -/

/-- What is taken is usable, and a failure is about the tokens. -/
structure Takes (digits : Nat) (p : Parser α) : Prop where
  used : ∀ ⦃ts x rest⦄, p ts = .ok (x, rest) →
    ∃ us, ts = us ++ rest ∧ ∀ t ∈ us, t.Usable digits
  blames : ∀ ⦃ts e⦄, p ts = .error e → e.Blames digits ts

namespace Takes

theorem suffix (h : Takes digits p) {x : α} (hp : p ts = .ok (x, rest)) : rest <:+ ts := by
  obtain ⟨us, hus, -⟩ := h.used hp
  exact ⟨us, hus.symm⟩

theorem ne_nil (h : Takes digits p) {x : α} (hp : p ts = .ok (x, rest)) (hrest : rest ≠ []) :
    ts ≠ [] := by
  rintro rfl
  exact hrest (List.suffix_nil.1 (h.suffix hp))

/-- A parser that takes nothing and always succeeds. -/
theorem of_ok {g : List Token → α} (h : ∀ ts, p ts = .ok (g ts, ts)) : Takes digits p where
  used := by
    intro ts x rest hp
    rw [h] at hp
    cases hp
    exact ⟨[], rfl, by simp⟩
  blames := by
    intro ts e hp
    rw [h] at hp
    cases hp

theorem pure (x : α) : Takes digits (Pure.pure x : Parser α) := of_ok (g := fun _ => x) fun _ => rfl

/-- A parser that always fails. -/
theorem of_error {g : List Token → ParseFailure} (h : ∀ ts, p ts = .error (g ts))
    (hg : ∀ ts, (g ts).Blames digits ts) : Takes digits p where
  used := by
    intro ts x rest hp
    rw [h] at hp
    cases hp
  blames := by
    intro ts e hp
    rw [h] at hp
    exact Except.error.inj hp ▸ hg ts

theorem bind (hp : Takes digits p) (hf : ∀ x, Takes digits (f x)) : Takes digits (p >>= f) where
  used := by
    intro ts y rest h
    obtain ⟨x, mid, hx, hy⟩ := bind_eq_ok.1 h
    obtain ⟨us, rfl, hus⟩ := hp.used hx
    obtain ⟨vs, rfl, hvs⟩ := (hf x).used hy
    refine ⟨us ++ vs, (List.append_assoc ..).symm, fun t ht => ?_⟩
    exact (List.mem_append.1 ht).elim (hus t) (hvs t)
  blames := by
    intro ts e h
    rcases bind_eq_error.1 h with h | ⟨x, mid, hx, h⟩
    · exact hp.blames h
    · exact ((hf x).blames h).mono (hp.suffix hx).subset

theorem map {g : α → β} (hp : Takes digits p) : Takes digits (g <$> p) := by
  rw [map_eq_pure_bind]
  exact hp.bind fun x => pure (g x)

theorem onSymbol {cases : List (String × Parser α)}
    (hcases : ∀ c ∈ cases, IsSymbol c.1 ∧ Takes digits c.2) (hp : Takes digits p) :
    Takes digits (Parser.onSymbol cases p) where
  used := by
    intro ts x rest h
    rcases of_onSymbol_eq_ok h with ⟨t, us, c, hc, ht, rfl, hq⟩ | ⟨-, hq⟩
    · obtain ⟨hs, hc⟩ := hcases c hc
      obtain ⟨vs, rfl, hvs⟩ := hc.used hq
      exact ⟨t :: vs, rfl, List.forall_mem_cons.2 ⟨Token.usable_of_is ht hs, hvs⟩⟩
    · exact hp.used hq
  blames := by
    intro ts e h
    cases ts with
    | nil => exact hp.blames h
    | cons t ts =>
      rw [Parser.onSymbol] at h
      split at h
      next s q hfind =>
        have hblames := (hcases _ (List.mem_of_find?_eq_some hfind)).2.blames h
        exact hblames.mono (List.subset_cons_self t ts)
      next => exact hp.blames h

theorem ite {b : Bool} {q : Parser α} (hp : Takes digits p) (hq : Takes digits q) :
    Takes digits (if b then p else q) := by
  cases b
  · exact hq
  · exact hp

theorem peek {g : List Token → Bool} {q : Parser α} (hp : Takes digits p) (hq : Takes digits q) :
    Takes digits (do if g (← get) then p else q) :=
  (of_ok (g := id) fun _ => rfl).bind fun _ => hp.ite hq

theorem onKeyword {cases : List (String × Parser α)}
    (hcases : ∀ c ∈ cases, IsSymbol c.1 ∧ Takes digits c.2) (hp : Takes digits p) :
    Takes digits (Parser.onKeyword cases p) :=
  (onSymbol hcases hp).peek hp

theorem expect (hs : IsSymbol s) : Takes digits (Parser.expect s) := by
  refine onSymbol ?_ (of_error (fun _ => rfl) (blames_head? (.symbol s)))
  simpa using ⟨hs, Takes.pure ()⟩

end Takes

/-! ## Tokens that follow -/

/-- A parser that leaves tokens over does the same if more tokens follow. -/
structure Steady (digits : Nat) (p : Parser α) : Prop extends Takes digits p where
  extend : ∀ ⦃ts x rest⦄, p ts = .ok (x, rest) → rest ≠ [] →
    ∀ more, p (ts ++ more) = .ok (x, rest ++ more)

namespace Steady

theorem pure (x : α) : Steady digits (Pure.pure x : Parser α) where
  toTakes := .pure x
  extend := by
    intro ts y rest h _ more
    obtain ⟨rfl, rfl⟩ := pure_eq_ok.1 h
    rfl

theorem of_error {g : List Token → ParseFailure} (h : ∀ ts, p ts = .error (g ts))
    (hg : ∀ ts, (g ts).Blames digits ts) : Steady digits p where
  toTakes := .of_error h hg
  extend := by
    intro ts x rest hp
    rw [h] at hp
    cases hp

theorem fail (wanted : Expectation) : Steady digits (Parser.fail wanted : Parser α) :=
  of_error (fun _ => rfl) (blames_head? wanted)

theorem tooDeep : Steady digits (Parser.tooDeep : Parser α) :=
  of_error (g := fun _ => .tooDeep) (fun _ => rfl) fun _ => trivial

theorem bind (hp : Steady digits p) (hf : ∀ x, Steady digits (f x)) :
    Steady digits (p >>= f) where
  toTakes := hp.toTakes.bind fun x => (hf x).toTakes
  extend := by
    intro ts y rest h hrest more
    obtain ⟨x, mid, hx, hy⟩ := bind_eq_ok.1 h
    -- What is left over at the end was left over by the first parser too.
    have hmid := (hf x).ne_nil hy hrest
    exact bind_eq_ok.2 ⟨x, mid ++ more, hp.extend hx hmid more, (hf x).extend hy hrest more⟩

theorem map {g : α → β} (hp : Steady digits p) : Steady digits (g <$> p) := by
  rw [map_eq_pure_bind]
  exact hp.bind fun x => pure (g x)

theorem onSymbol {cases : List (String × Parser α)}
    (hcases : ∀ c ∈ cases, IsSymbol c.1 ∧ Steady digits c.2) (hp : Steady digits p) :
    Steady digits (Parser.onSymbol cases p) where
  toTakes := .onSymbol (fun c hc => ⟨(hcases c hc).1, (hcases c hc).2.toTakes⟩) hp.toTakes
  extend := by
    intro ts x rest h hrest more
    cases ts with
    | nil => exact absurd rfl (hp.ne_nil h hrest)
    | cons t ts =>
      rw [Parser.onSymbol] at h
      rw [List.cons_append, Parser.onSymbol]
      split at h
      next s q hfind =>
        exact (hcases _ (List.mem_of_find?_eq_some hfind)).2.extend h hrest more
      next => exact hp.extend h hrest more

theorem onSymbol_one {q : Parser α} (hs : IsSymbol s) (hp : Steady digits p)
    (hq : Steady digits q) : Steady digits (Parser.onSymbol [(s, p)] q) :=
  onSymbol (by simpa using ⟨hs, hp⟩) hq

theorem accept (hs : IsSymbol s) : Steady digits (Parser.accept s) :=
  onSymbol_one hs (pure true) (pure false)

theorem expect (hs : IsSymbol s) : Steady digits (Parser.expect s) :=
  onSymbol_one hs (pure ()) (fail _)

theorem ite {b : Bool} {q : Parser α} (hp : Steady digits p) (hq : Steady digits q) :
    Steady digits (if b then p else q) := by
  cases b
  · exact hq
  · exact hp

theorem ahead (s : String) : Steady digits (Parser.ahead s) where
  toTakes := .of_ok (g := startsWith s) fun _ => rfl
  extend := by
    intro ts b rest h hrest more
    obtain ⟨rfl, rfl⟩ := ahead_eq_ok.1 h
    exact ahead_eq_ok.2 ⟨(startsWith_append hrest).symm, rfl⟩

/-- A way chosen by the next token is chosen again. -/
theorem peekOne {g : List Token → Bool} {q : Parser α}
    (hg : ∀ ts more, ts ≠ [] → g (ts ++ more) = g ts)
    (hp : Steady digits p) (hq : Steady digits q) :
    Steady digits (do if g (← get) then p else q) where
  toTakes := hp.toTakes.peek hq.toTakes
  extend := by
    intro ts x rest h hrest more
    have hway : (if g ts then p else q) ts = .ok (x, rest) := h
    change (if g (ts ++ more) then p else q) (ts ++ more) = _
    rw [hg ts more ((hp.ite hq).ne_nil hway hrest)]
    exact (hp.ite hq).extend hway hrest more

theorem onKeyword {cases : List (String × Parser α)}
    (hcases : ∀ c ∈ cases, IsSymbol c.1 ∧ Steady digits c.2) (hp : Steady digits p) :
    Steady digits (Parser.onKeyword cases p) :=
  peekOne (fun _ _ => startsWithName_append) (onSymbol hcases hp) hp

/-- A way chosen by the next two tokens is chosen again, as a way that takes a token and leaves one
over has seen both. -/
theorem peek {g : List Token → Bool} {q : Parser α}
    (hg : ∀ ts more, 2 ≤ ts.length → g (ts ++ more) = g ts)
    (hp : Steady digits p) (hq : Steady digits q)
    (htake : ∀ ts x rest, (if g ts then p else q) ts = .ok (x, rest) → rest.length < ts.length) :
    Steady digits (do if g (← get) then p else q) where
  toTakes := hp.toTakes.peek hq.toTakes
  extend := by
    intro ts x rest h hrest more
    have hway : (if g ts then p else q) ts = .ok (x, rest) := h
    have hlength : 2 ≤ ts.length := by
      have hlt := htake ts x rest hway
      have hpos := List.length_pos_iff.2 hrest
      omega
    change (if g (ts ++ more) then p else q) (ts ++ more) = _
    rw [hg ts more hlength]
    exact (hp.ite hq).extend hway hrest more

/-! ## Words -/

theorem expectKind {k : Kind} (hk : k ≠ .integer ∧ k ≠ .name) :
    Steady digits (Parser.expectKind k) where
  used := by
    intro ts x rest h
    obtain ⟨t, ht, -, rfl⟩ := expectKind_eq_ok.1 h
    exact ⟨[t], rfl, by simpa using Token.usable_of_kind ht hk⟩
  blames := by
    intro ts e h
    exact of_expectKind_eq_error h ▸ blames_head? _ ts
  extend := by
    intro ts x rest h _ more
    obtain ⟨t, ht, hx, rfl⟩ := expectKind_eq_ok.1 h
    exact expectKind_eq_ok.2 ⟨t, ht, hx, rfl⟩

theorem var? : Steady digits Parser.var? where
  used := by
    intro ts x rest h
    rcases var?_eq_ok.1 h with ⟨t, ht, -, rfl⟩ | ⟨-, rfl, -⟩
    · exact ⟨[t], rfl, by simpa using Token.usable_of_kind ht (by decide)⟩
    · exact ⟨[], rfl, by simp⟩
  blames := by
    intro ts e h
    cases ts with
    | nil => cases h
    | cons t ts =>
      rw [Parser.var?] at h
      split at h <;> cases h
  extend := by
    intro ts x rest h hrest more
    rcases var?_eq_ok.1 h with ⟨t, ht, rfl, rfl⟩ | ⟨rfl, rfl, hhead⟩
    · exact var?_eq_ok.2 (.inl ⟨t, ht, rfl, rfl⟩)
    · refine var?_eq_ok.2 (.inr ⟨rfl, rfl, ?_⟩)
      rwa [head?_append hrest]

theorem literal? : Steady digits (Parser.literal? digits) where
  used := by
    intro ts x rest h
    rcases literal?_eq_ok.1 h with ⟨t, _, ht, -, rfl⟩ | ⟨-, rfl, -⟩
    · exact ⟨[t], rfl, by simpa using Token.usable_of_literal? ht⟩
    · exact ⟨[], rfl, by simp⟩
  blames := by
    intro ts e h
    cases ts with
    | nil => cases h
    | cons t ts =>
      rw [Parser.literal?] at h
      split at h
      next => cases h
      next ht =>
        cases h
        obtain ⟨he, hlong⟩ := Token.long_of_literal? ht
        exact ⟨he, t, List.mem_cons_self, hlong⟩
      next => cases h
  extend := by
    intro ts x rest h hrest more
    rcases literal?_eq_ok.1 h with ⟨t, l, ht, rfl, rfl⟩ | ⟨rfl, rfl, hhead⟩
    · exact literal?_eq_ok.2 (.inl ⟨t, l, ht, rfl, rfl⟩)
    · refine literal?_eq_ok.2 (.inr ⟨rfl, rfl, ?_⟩)
      rwa [head?_append hrest]

/-! ## Loops -/

/-- With room for `n` tokens a loop does what it does with room for `m` if more tokens follow. If it
leaves no token over, the tokens that follow have to be fine. -/
def Prolongs (fine : List Token → Prop) (loop : Nat → Parser α) (n m : Nat) : Prop :=
  ∀ ⦃ts x rest more⦄, ts.length ≤ n → loop n ts = .ok (x, rest) → (rest = [] → fine more) →
    (ts ++ more).length ≤ m → loop m (ts ++ more) = .ok (x, rest ++ more)

/-- A loop that is bounded by the number of tokens left does not feel a greater bound. -/
theorem prolongs {fine : List Token → Prop} {loop : Nat → Parser α}
    (hempty : ∀ n x rest more, loop n [] = .ok (x, rest) → ¬ (rest = [] → fine more))
    (hstep : ∀ n m, Prolongs fine loop n m → Prolongs fine loop (n + 1) (m + 1)) (n m : Nat) :
    Prolongs fine loop n m := by
  -- By induction on the smaller bound. Neither bound is zero, as there are tokens.
  induction n generalizing m with
  | zero =>
    intro ts x rest more hn h hrest
    obtain rfl := List.eq_nil_of_length_eq_zero (Nat.le_zero.1 hn)
    exact absurd hrest (hempty 0 x rest more h)
  | succ n ih =>
    cases m with
    | zero =>
      intro ts x rest more hn h hrest hm
      obtain ⟨rfl, -⟩ := List.append_eq_nil_iff.1 (List.eq_nil_of_length_eq_zero (Nat.le_zero.1 hm))
      exact absurd hrest (hempty (n + 1) x rest more h)
    | succ m => exact hstep n m (ih m)

theorem counted {loop : Nat → Parser α} (htakes : ∀ n, Takes digits (loop n))
    (hstep : ∀ n m, Prolongs (fun _ => False) loop n m →
      Prolongs (fun _ => False) loop (n + 1) (m + 1)) :
    Steady digits (remaining >>= loop) where
  toTakes := (Takes.of_ok (g := List.length) fun _ => rfl).bind htakes
  extend := by
    intro ts x rest h hrest more
    refine prolongs (fun n y rest _ hy hno => ?_) hstep _ _ (Nat.le_refl _) h hrest (Nat.le_refl _)
    exact hno (List.suffix_nil.1 ((htakes n).suffix hy))

theorem takes_commaItems (hp : Takes digits p) (n : Nat) : Takes digits (commaItems p n) := by
  induction n with
  | zero => exact .pure []
  | succ n ih =>
    rw [commaItems]
    refine .onSymbol ?_ (.pure [])
    simpa using ⟨by decide, hp.bind fun x => ih.bind fun xs => .pure (x :: xs)⟩

theorem commaItems (hp : Steady digits p) : Steady digits (remaining >>= Parser.commaItems p) := by
  refine counted (takes_commaItems hp.toTakes) ?_
  intro n m ih ts xs rest more hn h hrest hm
  have hts := (takes_commaItems hp.toTakes (n + 1)).ne_nil h hrest
  rw [Parser.commaItems, onSymbol_single_eq_ok] at h ⊢
  rcases h with ⟨c, us, hc, rfl, h⟩ | ⟨hno, h⟩
  · simp only [bind_eq_ok, pure_eq_ok] at h ⊢
    obtain ⟨x, mid, hx, ys, _, hys, rfl, rfl⟩ := h
    have hmid := (takes_commaItems hp.toTakes n).ne_nil hys hrest
    have hle := (hp.suffix hx).length_le
    simp only [List.length_append, List.length_cons] at hn hm
    have hroom : (mid ++ more).length ≤ m := by rw [List.length_append]; omega
    exact .inl ⟨c, us ++ more, hc, rfl, x, mid ++ more, hp.extend hx hmid more, ys, rest ++ more,
      ih (by omega) hys hrest hroom, rfl, rfl⟩
  · obtain ⟨rfl, rfl⟩ := pure_eq_ok.1 h
    exact .inr ⟨(startsWith_append hts).trans hno, rfl⟩

theorem items (hp : Steady digits p) : Steady digits (Parser.items p) := by
  refine hp.bind fun x => ?_
  rw [← bind_assoc]
  exact (commaItems hp).bind fun xs => pure (x :: xs)

theorem sequence (hp : Steady digits p) (hs : IsSymbol s) :
    Steady digits (Parser.sequence p s) :=
  onSymbol_one hs (pure []) ((items hp).bind fun xs => (expect hs).bind fun _ => pure xs)

theorem takes_itemsBefore (hp : Takes digits p) (stop : String) (n : Nat) :
    Takes digits (itemsBefore p stop n) := by
  induction n with
  | zero =>
    exact (ahead stop).toTakes.bind fun b => .ite (.pure []) (hp.bind fun x => .pure [x])
  | succ n ih =>
    exact (ahead stop).toTakes.bind fun b =>
      .ite (.pure []) (hp.bind fun x => ih.bind fun xs => .pure (x :: xs))

/-- Items up to a symbol, each of which takes a token. -/
theorem itemsBefore (hp : Steady digits p) (stop : String)
    (htake : ∀ ⦃ts x rest⦄, p ts = .ok (x, rest) → rest.length < ts.length) :
    Steady digits (remaining >>= Parser.itemsBefore p stop) := by
  refine counted (takes_itemsBefore hp.toTakes stop) ?_
  intro n m ih ts xs rest more hn h hrest hm
  have hts := (takes_itemsBefore hp.toTakes stop (n + 1)).ne_nil h hrest
  simp only [Parser.itemsBefore, bind_eq_ok, ahead_eq_ok] at h ⊢
  obtain ⟨_, _, ⟨rfl, rfl⟩, h⟩ := h
  refine ⟨_, _, ⟨rfl, rfl⟩, ?_⟩
  rw [startsWith_append hts]
  split at h
  next hstop =>
    obtain ⟨rfl, rfl⟩ := pure_eq_ok.1 h
    rw [if_pos hstop]
    rfl
  next hstop =>
    rw [if_neg hstop]
    simp only [bind_eq_ok, pure_eq_ok] at h ⊢
    obtain ⟨x, mid, hx, ys, _, hys, rfl, rfl⟩ := h
    have hmid := (takes_itemsBefore hp.toTakes stop n).ne_nil hys hrest
    have hlt := htake hx
    rw [List.length_append] at hm
    have hroom : (mid ++ more).length ≤ m := by rw [List.length_append]; omega
    exact ⟨x, mid ++ more, hp.extend hx hmid more, ys, rest ++ more,
      ih (by omega) hys hrest hroom, rfl, rfl⟩

theorem takes_cells (hp : Steady digits p) (n : Nat) : Takes digits (cells p n) := by
  have hclose : Takes digits (Parser.expect "]") := .expect (by decide)
  induction n with
  | zero => exact (items hp).toTakes.bind fun xs => hclose.bind fun _ => .pure (xs, none)
  | succ n ih =>
    refine (items hp).toTakes.bind fun xs => (accept (by decide)).toTakes.bind fun bar => ?_
    refine .ite ?_ (hclose.bind fun _ => .pure (xs, none))
    refine (Takes.of_ok (g := id) fun _ => rfl).bind fun us => .ite ?_ ?_
    · exact (Takes.expect (by decide)).bind fun _ => ih.bind fun c => hclose.bind fun _ => .pure _
    · exact hp.toTakes.bind fun tail => hclose.bind fun _ => .pure (xs, some tail)

end Steady

/-! ## Parsers that have nothing to add -/

/-- A parser that has nothing to add to what it took, if it leaves tokens over or the tokens that
follow are fine. -/
def Closes (fine : List Token → Prop) (p : Parser α) : Prop :=
  ∀ ⦃ts x rest⦄, p ts = .ok (x, rest) →
    ts ≠ [] ∧ ∀ ⦃more⦄, (rest = [] → fine more) → p (ts ++ more) = .ok (x, rest ++ more)

namespace Closes

variable {fine : List Token → Prop}

theorem bind (hp : Steady digits p) (hf : ∀ x, Closes fine (f x)) : Closes fine (p >>= f) := by
  intro ts y rest h
  obtain ⟨x, mid, hx, hy⟩ := bind_eq_ok.1 h
  obtain ⟨hmid, hy'⟩ := hf x hy
  refine ⟨hp.ne_nil hx hmid, fun more hmore => ?_⟩
  exact bind_eq_ok.2 ⟨x, mid ++ more, hp.extend hx hmid more, hy' hmore⟩

theorem map {g : α → β} (hp : Closes fine p) : Closes fine (g <$> p) := by
  intro ts y rest h
  obtain ⟨x, hx, rfl⟩ := map_eq_ok.1 h
  obtain ⟨hts, hx'⟩ := hp hx
  exact ⟨hts, fun more hmore => map_eq_ok.2 ⟨x, hx' hmore, rfl⟩⟩

theorem expect (s : String) (x : α) : Closes fine (Parser.expect s >>= fun _ => pure x) := by
  intro ts y rest h
  simp only [bind_eq_ok, expect_eq_ok, pure_eq_ok] at h
  obtain ⟨-, _, ⟨t, ht, rfl⟩, rfl, rfl⟩ := h
  refine ⟨List.cons_ne_nil t rest, fun more _ => ?_⟩
  exact bind_eq_ok.2 ⟨(), rest ++ more, expect_eq_ok.2 ⟨t, ht, rfl⟩, rfl⟩

theorem onSymbol_one {q : Parser α} (hp : Closes fine p) (hq : Closes fine q) :
    Closes fine (Parser.onSymbol [(s, p)] q) := by
  intro ts x rest h
  rcases onSymbol_single_eq_ok.1 h with ⟨t, us, ht, rfl, hus⟩ | ⟨hno, hts⟩
  · refine ⟨List.cons_ne_nil t us, fun more hmore => onSymbol_single_eq_ok.2 ?_⟩
    exact .inl ⟨t, us ++ more, ht, rfl, (hp hus).2 hmore⟩
  · obtain ⟨hne, hq'⟩ := hq hts
    refine ⟨hne, fun more hmore => onSymbol_single_eq_ok.2 ?_⟩
    exact .inr ⟨(startsWith_append hne).trans hno, hq' hmore⟩

/-- A loop that is bounded by the number of tokens left. -/
theorem counted {loop : Nat → Parser α} (hempty : ∀ n r, loop n [] ≠ .ok r)
    (hstep : ∀ n m, Steady.Prolongs fine loop n m → Steady.Prolongs fine loop (n + 1) (m + 1)) :
    Closes fine (remaining >>= loop) := by
  intro ts x rest h
  obtain ⟨_, _, hn, hx⟩ := bind_eq_ok.1 h
  obtain ⟨rfl, rfl⟩ := remaining_eq_ok.1 hn
  refine ⟨fun hts => hempty _ _ (hts ▸ hx), fun more hmore => ?_⟩
  refine bind_eq_ok.2 ⟨_, _, remaining_eq_ok.2 ⟨rfl, rfl⟩, ?_⟩
  exact Steady.prolongs (fun n y rest _ hy _ => hempty n _ hy) hstep _ _ (Nat.le_refl _) hx hmore
    (Nat.le_refl _)

theorem cells_nil_ne_ok (hp : Steady digits p) (n : Nat) (c : List α × Option α)
    (rest : List Token) : Parser.cells p n [] ≠ .ok (c, rest) := by
  intro h
  have hitems {xs : List α} {mid : List Token} (hxs : Parser.items p [] = .ok (xs, mid)) :
      mid = [] := List.suffix_nil.1 (hp.items.suffix hxs)
  cases n with
  | zero =>
    simp only [Parser.cells, bind_eq_ok, expect_eq_ok] at h
    obtain ⟨xs, _, hxs, -, _, ⟨c, -, rfl⟩, -⟩ := h
    cases hitems hxs
  | succ n =>
    simp only [Parser.cells, bind_eq_ok, accept_eq_ok] at h
    obtain ⟨xs, _, hxs, _, _, ⟨rfl, b, -, rfl⟩ | ⟨rfl, -, rfl⟩, h⟩ := h
    · cases hitems hxs
    · obtain rfl := hitems hxs
      simp only [Bool.false_eq_true, if_false, bind_eq_ok, expect_eq_ok] at h
      obtain ⟨-, _, ⟨c, -, hc⟩, -⟩ := h
      cases hc

/-- Whether a list with elements is opened is seen before the bracket that closes it. -/
theorem opensCells_append {e : Token} (us : List Token) (he : e.is "]") :
    opensCells (us ++ e :: rest ++ more) = opensCells (us ++ e :: rest) := by
  match us with
  | [] => simp [opensCells, Token.is_eq_false he (b := "[") (by decide)]
  | [_] => rfl
  | _ :: _ :: _ => rfl

theorem cells (hp : Steady digits p) : Closes fine (remaining >>= Parser.cells p) := by
  refine counted (fun n r => cells_nil_ne_ok hp n r.1 r.2) ?_
  intro n m ih ts c rest more hn h hrest hm
  simp only [Parser.cells, bind_eq_ok, accept_eq_ok] at h ⊢
  obtain ⟨xs, _, hxs, _, mid, ⟨rfl, b, hb, rfl⟩ | ⟨rfl, hno, rfl⟩, h⟩ := h
  · have hlength := (hp.items.suffix hxs).length_le
    have hxs' := hp.items.extend hxs (List.cons_ne_nil b mid) more
    refine ⟨xs, b :: (mid ++ more), hxs', true, mid ++ more, .inl ⟨rfl, b, hb, rfl⟩, ?_⟩
    simp only [if_true, bind_eq_ok, get_eq_ok] at h ⊢
    obtain ⟨_, mid, ⟨rfl, rfl⟩, h⟩ := h
    refine ⟨_, _, ⟨rfl, rfl⟩, ?_⟩
    cases hopen : opensCells mid with
    | true =>
      simp only [hopen, if_true, bind_eq_ok, expect_eq_ok, pure_eq_ok] at h
      obtain ⟨-, us, ⟨o, ho, rfl⟩, ys, _, hys, -, _, ⟨e, he, rfl⟩, rfl, rfl⟩ := h
      obtain ⟨vs, rfl⟩ := (Steady.takes_cells hp n).suffix hys
      simp only [List.length_append, List.length_cons] at hlength hn hm
      have hroom : (vs ++ e :: rest ++ more).length ≤ m := by
        simp only [List.length_append, List.length_cons]
        omega
      have hys' := ih (by simp only [List.length_append, List.length_cons]; omega) hys
        (fun h => absurd h (List.cons_ne_nil e rest)) hroom
      have hopen' : opensCells (o :: (vs ++ e :: rest) ++ more) = true :=
        (opensCells_append (o :: vs) he).trans hopen
      simp only [hopen', if_true, bind_eq_ok, expect_eq_ok, pure_eq_ok]
      exact ⟨(), _, ⟨o, ho, rfl⟩, ys, _, hys', (), rest ++ more, ⟨e, he, rfl⟩, rfl, rfl⟩
    | false =>
      simp only [hopen, Bool.false_eq_true, if_false, bind_eq_ok, expect_eq_ok, pure_eq_ok] at h
      obtain ⟨x, _, hx, -, _, ⟨e, he, rfl⟩, rfl, rfl⟩ := h
      obtain ⟨us, rfl⟩ := hp.suffix hx
      have hx' := hp.extend hx (List.cons_ne_nil e rest) more
      simp only [opensCells_append us he, hopen, Bool.false_eq_true, if_false, bind_eq_ok,
        expect_eq_ok, pure_eq_ok]
      exact ⟨x, _, hx', (), rest ++ more, ⟨e, he, rfl⟩, rfl, rfl⟩
  · simp only [Bool.false_eq_true, if_false, bind_eq_ok, expect_eq_ok, pure_eq_ok] at h
    obtain ⟨-, _, ⟨e, he, rfl⟩, rfl, rfl⟩ := h
    have hxs' := hp.items.extend hxs (List.cons_ne_nil e rest) more
    refine ⟨xs, _, hxs', false, _, .inr ⟨rfl, hno, rfl⟩, ?_⟩
    exact bind_eq_ok.2 ⟨(), rest ++ more, expect_eq_ok.2 ⟨e, he, rfl⟩, rfl⟩

end Closes

theorem Takes.steady (hp : Takes digits p) (hcloses : Closes (fun _ => False) p) :
    Steady digits p where
  toTakes := hp
  extend := fun _ _ _ h hrest _ => (hcloses h).2 hrest

theorem Steady.cells (hp : Steady digits p) : Steady digits (remaining >>= Parser.cells p) :=
  Takes.steady ((Takes.of_ok (g := List.length) fun _ => rfl).bind (takes_cells hp)) (.cells hp)

end Parser

/-! ## Levels -/

/-- The parsers of a level are those of the grammar and are steady, and that of modules closes. -/
structure Level.Steady (l : Level) : Prop where
  sound : l.Sound
  const : Parser.Steady l.digits l.const
  atom : Parser.Steady l.digits l.atom
  var : Parser.Steady l.digits l.var
  funName : Parser.Steady l.digits l.funName
  pattern : Parser.Steady l.digits l.pattern
  expr : Parser.Steady l.digits l.expr
  unit : Parser.Steady l.digits l.unit
  unit_closes : Closes (fun _ => True) l.unit

namespace Level

variable {α β γ : Type} {l : Level} {digits : Nat} {ts more rest : List Token}

theorem steady_constant (hl : l.Steady) : Parser.Steady l.digits l.constant :=
  hl.const.bind fun c => .pure c.node

theorem steady_variableName (hl : l.Steady) : Parser.Steady l.digits l.variableName :=
  hl.var.bind fun v => .pure v.node

theorem steady_plainPattern (hl : l.Steady) : Parser.Steady l.digits l.plainPattern :=
  hl.pattern.bind fun p => .pure p.node

theorem steady_annotations (hl : l.Steady) : Parser.Steady l.digits l.annotations :=
  .onSymbol_one (by decide)
    ((Steady.expect (by decide)).bind fun _ => .sequence (steady_constant hl) (by decide))
    (.pure [])

theorem steady_closing (hl : l.Steady) : Parser.Steady l.digits l.closing :=
  (steady_annotations hl).bind fun more => (Steady.expect (by decide)).bind fun _ => .pure more

theorem steady_annotated (hl : l.Steady) {inner : Parser (Ann α)} {bare : Parser α}
    (hinner : Parser.Steady l.digits inner) (hbare : Parser.Steady l.digits bare) :
    Parser.Steady l.digits (l.annotated inner bare) :=
  .onSymbol_one (by decide)
    (hinner.bind fun x => (steady_closing hl).bind fun more => .pure _)
    hbare.map

theorem steady_segment {value : Parser α} {modifier : Parser β}
    (hvalue : Parser.Steady digits value) (hmodifier : Parser.Steady digits modifier) :
    Parser.Steady digits (segment value modifier) :=
  (Steady.expect (by decide)).bind fun _ => hvalue.bind fun x =>
    (Steady.expect (by decide)).bind fun _ => (Steady.expect (by decide)).bind fun _ =>
      (hmodifier.sequence (by decide)).bind fun ms => .pure (x, ms)

theorem steady_fullSegment {value : Parser α} {modifier : Parser β}
    (make : α → β → β → β → β → γ)
    (hvalue : Parser.Steady digits value) (hmodifier : Parser.Steady digits modifier) :
    Parser.Steady digits (fullSegment value modifier make) := by
  refine (steady_segment hvalue hmodifier).bind fun x => ?_
  obtain ⟨x, ms⟩ := x
  dsimp only
  split
  · exact .pure _
  · exact .fail _

theorem steady_mapOp : Parser.Steady digits mapOp := by
  refine .onSymbol ?_ (.fail _)
  simpa using ⟨⟨by decide, Steady.pure _⟩, by decide, Steady.pure _⟩

theorem steady_bracketed {item : Parser α} (hitem : Parser.Steady digits item) (nil : β)
    (list : List α → Option α → β) : Parser.Steady digits (bracketed item nil list) := by
  rw [bracketed_eq]
  refine .onSymbol_one (by decide) (.pure nil) ?_
  rw [← bind_assoc]
  exact (Steady.cells hitem).bind fun c => .pure (list c.1 c.2)

theorem steady_constSegment (hl : l.Steady) : Parser.Steady l.digits l.constSegment :=
  (steady_segment (steady_constant hl) (steady_constant hl)).bind fun s => .pure (s.1 :: s.2)

theorem steady_constPair (hl : l.Steady) : Parser.Steady l.digits l.constPair :=
  (steady_constant hl).bind fun key => steady_mapOp.bind fun _ =>
    (steady_constant hl).bind fun value => .pure (key, value)

theorem steady_bareConst (hl : l.Steady) : Parser.Steady l.digits l.bareConst := by
  have hconst := steady_constant hl
  refine Steady.literal?.bind fun value => ?_
  cases value with
  | some value => exact .pure _
  | none =>
    refine .onSymbol ?_ (.fail _)
    simp only [constCases, List.forall_mem_cons]
    exact ⟨⟨by decide, (hconst.sequence (by decide)).map⟩,
      ⟨by decide, steady_bracketed hconst _ _⟩, ⟨by decide, ((steady_constSegment hl).sequence (by decide)).map⟩,
      ⟨by decide, ((steady_constPair hl).sequence (by decide)).map⟩, List.forall_mem_nil _⟩

/-! ## Names, variables and patterns -/

/-- An integer token that is converted at once. -/
theorem steady_arity (make : Int → α) :
    Parser.Steady digits (do
      let numeral ← expectKind .integer
      return make (← converted (Numeral.integer digits numeral))) where
  used := by
    intro ts x rest h
    simp only [bind_eq_ok, expectKind_eq_ok, converted_eq_ok, pure_eq_ok] at h
    obtain ⟨_, _, ⟨t, ht, rfl, rfl⟩, n, _, ⟨hn, rfl⟩, rfl, rfl⟩ := h
    exact ⟨[t], rfl, by simpa using Token.usable_of_integer ht hn⟩
  blames := by
    intro ts e h
    rcases bind_eq_error.1 h with hkind | ⟨_, _, hkind, hrest⟩
    · exact of_expectKind_eq_error hkind ▸ blames_head? _ ts
    · obtain ⟨t, ht, rfl, rfl⟩ := expectKind_eq_ok.1 hkind
      rcases bind_eq_error.1 hrest with hconverted | ⟨_, _, -, hpure⟩
      · cases hn : Numeral.integer digits t.text with
        | ok n => rw [hn] at hconverted; cases hconverted
        | error e' =>
          rw [hn] at hconverted
          cases hconverted
          obtain ⟨he, hlong⟩ := Token.long_of_integer ht hn
          exact ⟨he, t, List.mem_cons_self, hlong⟩
      · cases hpure
  extend := by
    intro ts x rest h _ more
    simp only [bind_eq_ok, expectKind_eq_ok, converted_eq_ok, pure_eq_ok] at h ⊢
    obtain ⟨_, _, ⟨t, ht, rfl, rfl⟩, n, _, ⟨hn, rfl⟩, rfl, rfl⟩ := h
    exact ⟨_, _, ⟨t, ht, rfl, rfl⟩, n, _, ⟨hn, rfl⟩, rfl, rfl⟩

theorem steady_bareFunName (l : Level) : Parser.Steady l.digits l.bareFunName :=
  (Steady.expectKind (by decide)).bind fun name => (Steady.expect (by decide)).bind fun _ =>
    steady_arity (FunName.mk name)

theorem steady_varList (hl : l.Steady) : Parser.Steady l.digits l.varList :=
  .onSymbol_one (by decide) ((steady_variableName hl).sequence (by decide))
    ((steady_variableName hl).bind fun v => .pure [v])

theorem steady_patterns (hl : l.Steady) : Parser.Steady l.digits l.patterns :=
  .onSymbol_one (by decide) ((steady_plainPattern hl).sequence (by decide))
    ((steady_plainPattern hl).bind fun p => .pure [p])

theorem steady_patternSegment (hl : l.Steady) : Parser.Steady l.digits l.patternSegment :=
  steady_fullSegment PatternSegment.mk (steady_plainPattern hl) hl.expr

theorem steady_patternPair (hl : l.Steady) : Parser.Steady l.digits l.patternPair :=
  hl.expr.bind fun _ => (Steady.expect (by decide)).bind fun _ =>
    (steady_plainPattern hl).bind fun _ => .pure _

theorem steady_barePattern (hl : l.Steady) : Parser.Steady l.digits l.barePattern := by
  have hpattern := steady_plainPattern hl
  refine Steady.var?.bind fun v => ?_
  cases v with
  | some v => exact .onSymbol_one (by decide) hpattern.map (.pure _)
  | none =>
    refine Steady.literal?.bind fun value => ?_
    cases value with
    | some value => exact .pure _
    | none =>
      refine .onSymbol ?_ (.fail _)
      simp only [patternCases, List.forall_mem_cons]
      exact ⟨⟨by decide, steady_bracketed hpattern _ _⟩,
        ⟨by decide, (hpattern.sequence (by decide)).map⟩,
        ⟨by decide, ((steady_patternSegment hl).sequence (by decide)).map⟩,
        ⟨by decide, ((steady_patternPair hl).sequence (by decide)).map⟩, List.forall_mem_nil _⟩

/-! ## Clauses and definitions -/

theorem steady_clauseRest (hl : l.Steady) (ps : List Pattern) :
    Parser.Steady l.digits (l.clauseRest ps) :=
  (Steady.expect (by decide)).bind fun _ => hl.expr.bind fun _ =>
    (Steady.expect (by decide)).bind fun _ => hl.expr.bind fun _ => .pure _

/-- A clause in parentheses, after its patterns. -/
def wrappedClause (l : Level) (ps : List Pattern) : Parser (Ann Clause) := do
  let c ← l.clauseRest ps
  return ⟨c, ← l.closing⟩

/-- A clause without parentheses. -/
def plainClause (l : Level) : Parser (Ann Clause) := do
  return .plain (← l.clauseRest (← l.patterns))

theorem steady_wrappedClause (hl : l.Steady) (ps : List Pattern) :
    Parser.Steady l.digits (l.wrappedClause ps) :=
  (steady_clauseRest hl ps).bind fun _ => (steady_closing hl).bind fun _ => .pure _

theorem steady_plainClause (hl : l.Steady) : Parser.Steady l.digits l.plainClause :=
  (steady_patterns hl).bind fun ps => (steady_clauseRest hl ps).bind fun _ => .pure _

/-- After a parenthesis the patterns are read, perhaps to be read again with the parenthesis. -/
theorem clause_paren {o : Token} (ho : o.is "(") :
    l.clause (o :: ts) = Except.bind (l.patterns ts) fun r =>
      if startsWith "when" r.2 then l.wrappedClause r.1 r.2 else l.plainClause (o :: ts) := by
  have haccept : accept "(" (o :: ts) = .ok (true, ts) := accept_eq_ok.2 (.inl ⟨rfl, o, ho, rfl⟩)
  rw [clause, bind_of_ok (get_eq_ok.2 ⟨rfl, rfl⟩), bind_of_ok haccept, if_pos rfl]
  refine congrArg (Except.bind (l.patterns ts)) (funext fun r => ?_)
  obtain ⟨ps, mid⟩ := r
  change (ahead "when" >>= _) mid = _
  rw [bind_of_ok (ahead_eq_ok.2 ⟨rfl, rfl⟩)]
  cases startsWith "when" mid <;> rfl

theorem clause_plain (h : startsWith "(" ts = false) : l.clause ts = l.plainClause ts := by
  have haccept : accept "(" ts = .ok (false, ts) := accept_eq_ok.2 (.inr ⟨rfl, h, rfl⟩)
  rw [clause, bind_of_ok (get_eq_ok.2 ⟨rfl, rfl⟩), bind_of_ok haccept]
  rfl

/-- Patterns that stand at the end of the tokens do not have a parenthesis after them. -/
theorem patterns_ne_nil {o : Token} {ps qs : List Pattern} {mid : List Token} (hl : l.Steady)
    (ho : o.is "(") (hps : l.patterns ts = .ok (ps, mid))
    (hqs : l.patterns (o :: ts) = .ok (qs, rest)) : mid ≠ [] := by
  rintro rfl
  obtain ⟨p, inner, cs, hinner, hclosing⟩ := inside_parens (patterns_sound hl.sound hqs) ho
  obtain ⟨digits, hshort⟩ := exists_short ts
  have hcomplete := ofDepth_complete digits (ts.length + 1)
  have hfit : Fits (ofDepth digits (ts.length + 1)).digits (ts.length + 1) ts := by
    rw [digits_ofDepth]
    exact ⟨Nat.lt_succ_self _, hshort⟩
  have hend := patterns_complete hcomplete (patterns_sound hl.sound hps) hfit .nil
  have hparen := patterns_complete hcomplete hinner hfit (.begins hclosing.begins (by decide))
  rw [hend] at hparen
  cases hparen
  exact hclosing.begins

theorem takes_clause (hl : l.Steady) : Takes l.digits l.clause where
  used := by
    intro ts x rest h
    cases hparen : startsWith "(" ts with
    | false =>
      rw [clause_plain hparen] at h
      exact (steady_plainClause hl).used h
    | true =>
      obtain ⟨o, us, ho, rfl⟩ := startsWith_iff.1 hparen
      rw [clause_paren ho] at h
      cases hps : l.patterns us with
      | error e => rw [hps] at h; cases h
      | ok r =>
        rw [hps, Except.bind] at h
        split at h
        · obtain ⟨vs, hvs, hused⟩ := (steady_patterns hl).used hps
          obtain ⟨ws, hws, hused'⟩ := (steady_wrappedClause hl r.1).used h
          refine ⟨o :: vs ++ ws, by rw [hvs, hws, List.append_assoc, List.cons_append], ?_⟩
          intro t ht
          rcases List.mem_append.1 ht with ht | ht
          · rcases List.mem_cons.1 ht with rfl | ht
            · exact Token.usable_of_is ho (by decide)
            · exact hused t ht
          · exact hused' t ht
        · exact (steady_plainClause hl).used h
  blames := by
    intro ts e h
    cases hparen : startsWith "(" ts with
    | false =>
      rw [clause_plain hparen] at h
      exact (steady_plainClause hl).blames h
    | true =>
      obtain ⟨o, us, ho, rfl⟩ := startsWith_iff.1 hparen
      rw [clause_paren ho] at h
      cases hps : l.patterns us with
      | error e' =>
        rw [hps] at h
        cases h
        exact ((steady_patterns hl).blames hps).mono (List.subset_cons_self o us)
      | ok r =>
        rw [hps, Except.bind] at h
        split at h
        · have hsuffix := (steady_patterns hl).suffix hps
          exact ((steady_wrappedClause hl r.1).blames h).mono
            (List.subset_cons_of_subset o hsuffix.subset)
        · exact (steady_plainClause hl).blames h

/-- The way in which a clause is read is chosen by tokens that are there. -/
theorem steady_clause (hl : l.Steady) : Parser.Steady l.digits l.clause where
  toTakes := takes_clause hl
  extend := by
    intro ts x rest h hrest more
    have hts := (takes_clause hl).ne_nil h hrest
    cases hparen : startsWith "(" ts with
    | false =>
      rw [clause_plain hparen] at h
      rw [clause_plain ((startsWith_append hts).trans hparen)]
      exact (steady_plainClause hl).extend h hrest more
    | true =>
      obtain ⟨o, us, ho, rfl⟩ := startsWith_iff.1 hparen
      rw [clause_paren ho] at h
      rw [List.cons_append, clause_paren ho]
      cases hps : l.patterns us with
      | error e => rw [hps] at h; cases h
      | ok r =>
        obtain ⟨ps, mid⟩ := r
        rw [hps, Except.bind] at h
        cases hwhen : startsWith "when" mid with
        | true =>
          rw [if_pos hwhen] at h
          have hmid := (steady_wrappedClause hl ps).ne_nil h hrest
          rw [(steady_patterns hl).extend hps hmid more, Except.bind,
            if_pos ((startsWith_append hmid).trans hwhen)]
          exact (steady_wrappedClause hl ps).extend h hrest more
        | false =>
          rw [if_neg (Bool.eq_false_iff.1 hwhen)] at h
          obtain ⟨qs, mid', hqs, -⟩ := bind_eq_ok.1 h
          have hmid := patterns_ne_nil hl ho hps hqs
          have hwhen' : startsWith "when" (mid ++ more) = false :=
            (startsWith_append hmid).trans hwhen
          rw [(steady_patterns hl).extend hps hmid more, Except.bind,
            if_neg (Bool.eq_false_iff.1 hwhen')]
          exact (steady_plainClause hl).extend h hrest more

theorem steady_clauseRun (hl : l.Steady) (stop : String) :
    Parser.Steady l.digits (remaining >>= Parser.itemsBefore l.clause stop) :=
  (steady_clause hl).itemsBefore stop fun _ _ _ h => (clause_sound hl.sound h).length_lt

theorem steady_clauses (hl : l.Steady) {stop : String} (hstop : IsSymbol stop) :
    Parser.Steady l.digits (l.clauses stop) := by
  rw [clauses, ← bind_assoc]
  exact (steady_clauseRun hl stop).bind fun cs => (Steady.expect hstop).bind fun _ => .pure cs

theorem steady_definition (hl : l.Steady) : Parser.Steady l.digits l.definition := by
  refine hl.funName.bind fun name => (Steady.expect (by decide)).bind fun _ =>
    hl.expr.bind fun function => ?_
  split
  · exact .pure _
  · exact .fail _

theorem steady_definitionRun (hl : l.Steady) (stop : String) :
    Parser.Steady l.digits (remaining >>= Parser.itemsBefore l.definition stop) :=
  (steady_definition hl).itemsBefore stop fun _ _ _ h => (definition_sound hl.sound h).length_lt

theorem steady_definitions (hl : l.Steady) {stop : String} (hstop : IsSymbol stop) :
    Parser.Steady l.digits (l.definitions stop) := by
  rw [definitions, ← bind_assoc]
  exact (steady_definitionRun hl stop).bind fun ds => (Steady.expect hstop).bind fun _ => .pure ds

theorem closes_definitions {fine : List Token → Prop} (hl : l.Steady) (stop : String) :
    Closes fine (l.definitions stop) := by
  rw [definitions, ← bind_assoc]
  exact .bind (steady_definitionRun hl stop) fun ds => .expect stop ds

/-! ## Expressions -/

theorem steady_exprSegment (hl : l.Steady) : Parser.Steady l.digits l.exprSegment :=
  steady_fullSegment _ hl.expr hl.expr

theorem steady_mapPair (hl : l.Steady) : Parser.Steady l.digits l.mapPair :=
  hl.expr.bind fun _ => steady_mapOp.bind fun _ => hl.expr.bind fun _ => .pure _

theorem steady_mapPairs (hl : l.Steady) : Parser.Steady l.digits l.mapPairs :=
  (Steady.ahead _).bind fun _ => (Steady.ahead _).bind fun _ =>
    .ite (.pure []) (steady_mapPair hl).items

theorem steady_mapBase (hl : l.Steady) :
    Parser.Steady l.digits (onSymbol [("|", some <$> l.expr)] (pure none)) :=
  .onSymbol_one (by decide) hl.expr.map (.pure none)

theorem steady_mapBody (hl : l.Steady) : Parser.Steady l.digits l.mapBody :=
  (steady_mapPairs hl).bind fun _ => (steady_mapBase hl).bind fun _ =>
    (Steady.expect (by decide)).bind fun _ => .pure _

theorem steady_arguments (hl : l.Steady) : Parser.Steady l.digits l.arguments :=
  (Steady.expect (by decide)).bind fun _ => hl.expr.sequence (by decide)

theorem steady_of_mem_keywordCases (hl : l.Steady) :
    ∀ c ∈ l.keywordCases, IsSymbol c.1 ∧ Parser.Steady l.digits c.2 := by
  have hvars := steady_varList hl
  have hargs := steady_arguments hl
  have hexpect {s : String} (hs : IsSymbol s) : Parser.Steady l.digits (Parser.expect s) :=
    .expect hs
  have hlambda : Parser.Steady l.digits l.lambda :=
    (hexpect (by decide)).bind fun _ =>
      ((steady_variableName hl).sequence (by decide)).bind fun _ =>
        (hexpect (by decide)).bind fun _ => hl.expr.bind fun _ => .pure _
  have hletRec : Parser.Steady l.digits l.letRec :=
    (steady_definitions hl (by decide)).bind fun _ => hl.expr.bind fun _ => .pure _
  have hcaseOf : Parser.Steady l.digits l.caseOf :=
    hl.expr.bind fun _ => (hexpect (by decide)).bind fun _ =>
      (steady_clauses hl (by decide)).bind fun _ => .pure _
  have hreceive : Parser.Steady l.digits l.receive :=
    (steady_clauses hl (by decide)).bind fun _ => hl.expr.bind fun _ =>
      (hexpect (by decide)).bind fun _ => hl.expr.bind fun _ => .pure _
  have happly : Parser.Steady l.digits l.apply :=
    hl.expr.bind fun _ => hargs.bind fun _ => .pure _
  have hcall : Parser.Steady l.digits l.call :=
    hl.expr.bind fun _ => (hexpect (by decide)).bind fun _ => hl.expr.bind fun _ =>
      hargs.bind fun _ => .pure _
  have hprimop : Parser.Steady l.digits l.primop :=
    hl.atom.bind fun _ => hargs.bind fun _ => .pure _
  have htryOf : Parser.Steady l.digits l.tryOf :=
    hl.expr.bind fun _ => (hexpect (by decide)).bind fun _ => hvars.bind fun _ =>
      (hexpect (by decide)).bind fun _ => hl.expr.bind fun _ => (hexpect (by decide)).bind fun _ =>
        hvars.bind fun _ => (hexpect (by decide)).bind fun _ => hl.expr.bind fun _ => .pure _
  simp only [keywordCases, List.forall_mem_cons]
  exact ⟨⟨by decide, hlambda⟩, ⟨by decide, hletRec⟩, ⟨by decide, hcaseOf⟩, ⟨by decide, hreceive⟩,
    ⟨by decide, happly⟩, ⟨by decide, hcall⟩, ⟨by decide, hprimop⟩, ⟨by decide, htryOf⟩,
    ⟨by decide, hl.expr.map⟩, List.forall_mem_nil _⟩

theorem steady_of_mem_exprCases (hl : l.Steady) :
    ∀ c ∈ l.exprCases, IsSymbol c.1 ∧ Parser.Steady l.digits c.2 := by
  simp only [exprCases, List.forall_mem_cons]
  exact ⟨⟨by decide, steady_bracketed hl.expr _ _⟩,
    ⟨by decide, (hl.expr.sequence (by decide)).map⟩,
    ⟨by decide, (hl.expr.sequence (by decide)).map⟩,
    ⟨by decide, ((steady_exprSegment hl).sequence (by decide)).map⟩,
    ⟨by decide, steady_mapBody hl⟩, List.forall_mem_nil _⟩

theorem takes_chain (hl : l.Steady) (n : Nat) : Takes l.digits (l.chain n) := by
  have hvars := (steady_varList hl).toTakes
  have hexpr := hl.expr.toTakes
  induction n with
  | zero => exact hexpr
  | succ n ih =>
    have hbinding : Takes l.digits (l.bindingThen (l.chain n)) :=
      hvars.bind fun _ => (Takes.expect (by decide)).bind fun _ => hexpr.bind fun _ =>
        (Takes.expect (by decide)).bind fun _ => ih.bind fun _ => .pure _
    have hsteps : Takes l.digits (l.stepThen (l.chain n)) :=
      hexpr.bind fun _ => ih.bind fun _ => .pure _
    refine .onKeyword ?_ hexpr
    simp only [List.forall_mem_cons]
    exact ⟨⟨by decide, hbinding.map⟩, ⟨by decide, hsteps.map⟩, List.forall_mem_nil _⟩

/-- A chain ends where its last expression does. -/
theorem closes_chain {fine : List Token → Prop} (hl : l.Steady) (hexpr : Closes fine l.expr) :
    Closes fine (remaining >>= l.chain) := by
  have hempty (n : Nat) (r : Ann Expr × List Token) : l.chain n [] ≠ .ok r := by
    intro h
    cases n <;> exact (hexpr h).1 rfl
  refine .counted hempty ?_
  intro n m ih ts x rest more hn h hrest hm
  -- The body of a binding, or the next step, is a chain after at least one token.
  have hbody {mid us : List Token} {t : Token} {y : Ann Expr} (hts : ts = t :: us)
      (hmid : mid <:+ us) (hy : l.chain n mid = .ok (y, rest)) :
      mid ≠ [] ∧ l.chain m (mid ++ more) = .ok (y, rest ++ more) := by
    have hle := hmid.length_le
    simp only [hts, List.length_append, List.length_cons] at hn hm
    have hroom : (mid ++ more).length ≤ m := by rw [List.length_append]; omega
    exact ⟨fun hnil => hempty n _ (hnil ▸ hy), ih (by omega) hy hrest hroom⟩
  rcases of_onKeyword_eq_ok h with ⟨t, us, c, hc, ht, rfl, hus⟩ | ⟨hno, hlast⟩
  · simp only [List.mem_cons, List.not_mem_nil, or_false] at hc
    rcases hc with rfl | rfl
    · rw [List.cons_append, chain_of_let m ht]
      simp only [bindingThen, map_eq_ok, bind_eq_ok, expect_eq_ok, pure_eq_ok] at hus ⊢
      obtain ⟨_, ⟨vs, _, hvs, -, m₁, ⟨e, he, rfl⟩, v, _, hv, -, m₂, ⟨i, hi, rfl⟩, y, _, hy, rfl,
        rfl⟩, rfl⟩ := hus
      have hsuffix : m₂ <:+ us :=
        (List.suffix_cons i m₂).trans <| (hl.expr.suffix hv).trans <|
          (List.suffix_cons e m₁).trans <| (steady_varList hl).suffix hvs
      have hvs' := (steady_varList hl).extend hvs (List.cons_ne_nil e m₁) more
      have hv' := hl.expr.extend hv (List.cons_ne_nil i m₂) more
      obtain ⟨-, hy'⟩ := hbody rfl hsuffix hy
      exact ⟨_, ⟨vs, _, hvs', (), m₁ ++ more, ⟨e, he, rfl⟩, v, _, hv', (), m₂ ++ more, ⟨i, hi, rfl⟩,
        y, _, hy', rfl, rfl⟩, rfl⟩
    · rw [List.cons_append, chain_of_do m ht]
      simp only [stepThen, map_eq_ok, bind_eq_ok, pure_eq_ok] at hus ⊢
      obtain ⟨_, ⟨v, mid, hv, y, _, hy, rfl, rfl⟩, rfl⟩ := hus
      obtain ⟨hmid, hy'⟩ := hbody rfl (hl.expr.suffix hv) hy
      exact ⟨_, ⟨v, _, hl.expr.extend hv hmid more, y, _, hy', rfl, rfl⟩, rfl⟩
  · obtain ⟨hts, hlast'⟩ := hexpr hlast
    refine (onKeyword_eq_otherwise ?_).trans (hlast' hrest)
    rw [head?_append hts]
    simpa using hno

theorem steady_chain (hl : l.Steady) : Parser.Steady l.digits (remaining >>= l.chain) := by
  refine Takes.steady ((Takes.of_ok (g := List.length) fun _ => rfl).bind (takes_chain hl)) ?_
  refine closes_chain hl fun ts x rest h => ⟨?_, fun more hrest => hl.expr.extend h hrest more⟩
  rintro rfl
  exact absurd (hl.sound.expr h).length_lt (Nat.not_lt_zero _)

theorem opensFunName_append (h : 2 ≤ ts.length) : opensFunName (ts ++ more) = opensFunName ts := by
  match ts, h with
  | _ :: _ :: _, _ => rfl

theorem opensChain_append (h : ts ≠ []) : opensChain (ts ++ more) = opensChain ts := by
  cases ts with
  | nil => exact absurd rfl h
  | cons t ts => rfl

theorem steady_compoundExpr (hl : l.Steady) : Parser.Steady l.digits l.compoundExpr := by
  rw [compoundExpr, bindingChain_eq]
  exact .peekOne (fun _ _ => opensChain_append) ((steady_chain hl).bind fun _ => .pure _)
    (.onKeyword (steady_of_mem_keywordCases hl) (.onSymbol (steady_of_mem_exprCases hl) (.fail _)))

/-- An expression that is neither a variable nor a function of the module. -/
def otherExpr (l : Level) : Parser Expr := do
  match ← literal? l.digits with
  | some value => return .lit value
  | none => l.compoundExpr

theorem steady_otherExpr (hl : l.Steady) : Parser.Steady l.digits l.otherExpr := by
  refine Steady.literal?.bind fun value => ?_
  cases value with
  | some value => exact .pure _
  | none => exact steady_compoundExpr hl

theorem length_lt_of_otherExpr (hl : l.Steady) {x : Expr} (h : l.otherExpr ts = .ok (x, rest)) :
    rest.length < ts.length := by
  simp only [otherExpr, bind_eq_ok, literal?_eq_ok] at h
  obtain ⟨_, mid, ⟨t, value, -, rfl, rfl⟩ | ⟨rfl, rfl, -⟩, h⟩ := h
  · obtain ⟨rfl, rfl⟩ := pure_eq_ok.1 h
    exact Nat.lt_succ_self _
  · exact (compoundExpr_sound hl.sound h).length_lt

theorem steady_bareExpr (hl : l.Steady) : Parser.Steady l.digits l.bareExpr := by
  refine Steady.var?.bind fun v => ?_
  cases v with
  | some v => exact .pure _
  | none =>
    have hfunRef : Parser.Steady l.digits (do return Expr.funRef (← l.bareFunName)) :=
      (steady_bareFunName l).bind fun _ => .pure _
    refine Steady.peek (g := opensFunName) (fun _ _ => opensFunName_append) hfunRef
      (steady_otherExpr hl) ?_
    intro ts x rest h
    split at h
    · obtain ⟨name, _, hname, hx⟩ := bind_eq_ok.1 h
      obtain ⟨rfl, rfl⟩ := pure_eq_ok.1 hx
      exact (bareFunName_sound hname).length_lt
    · exact length_lt_of_otherExpr hl h

/-! ## Modules -/

theorem closes_closing {fine : List Token → Prop} (hl : l.Steady) : Closes fine l.closing :=
  .bind (steady_annotations hl) fun more => .expect ")" more

theorem steady_export (hl : l.Steady) :
    Parser.Steady l.digits (do return (← l.funName).node : Parser FunName) :=
  hl.funName.bind fun name => .pure name.node

theorem steady_attributePair (hl : l.Steady) : Parser.Steady l.digits l.attributePair :=
  hl.atom.bind fun _ => (Steady.expect (by decide)).bind fun _ =>
    (steady_constant hl).bind fun _ => .pure _

theorem steady_header (hl : l.Steady) : Parser.Steady l.digits l.header :=
  (Steady.expect (by decide)).bind fun _ => (Steady.expectKind (by decide)).bind fun _ =>
    (Steady.expect (by decide)).bind fun _ =>
      ((steady_export hl).sequence (by decide)).bind fun _ =>
        (Steady.expect (by decide)).bind fun _ => (Steady.expect (by decide)).bind fun _ =>
          ((steady_attributePair hl).sequence (by decide)).bind fun _ => .pure _

theorem steady_bareModule (hl : l.Steady) : Parser.Steady l.digits l.bareModule := by
  rw [bareModule_eq]
  exact (steady_header hl).bind fun _ => (steady_definitions hl (by decide)).map

theorem closes_bareModule {fine : List Token → Prop} (hl : l.Steady) : Closes fine l.bareModule := by
  rw [bareModule_eq]
  exact .bind (steady_header hl) fun _ => (closes_definitions hl "end").map

theorem closes_unit {fine : List Token → Prop} (hl : l.Steady) :
    Closes fine (l.annotated l.unit l.bareModule) := by
  refine .onSymbol_one (.bind hl.unit fun x => ?_) (closes_bareModule hl).map
  rw [← map_eq_pure_bind]
  exact (closes_closing hl).map

theorem next_steady (hl : l.Steady) : l.next.Steady where
  sound := next_sound hl.sound
  const := steady_annotated hl hl.const (steady_bareConst hl)
  atom := steady_annotated hl hl.atom (.expectKind (by decide))
  var := steady_annotated hl hl.var (.expectKind (by decide))
  funName := steady_annotated hl hl.funName (steady_bareFunName l)
  pattern := steady_annotated hl hl.pattern (steady_barePattern hl)
  expr := steady_annotated hl hl.expr (steady_bareExpr hl)
  unit := steady_annotated hl hl.unit (steady_bareModule hl)
  unit_closes := closes_unit hl

theorem ofDepth_steady (digits depth : Nat) : (ofDepth digits depth).Steady := by
  induction depth with
  | zero =>
    exact ⟨ofDepth_sound digits 0, .tooDeep, .tooDeep, .tooDeep, .tooDeep, .tooDeep, .tooDeep,
      .tooDeep, fun ts _ _ h => absurd h (tooDeep_ne_ok ts)⟩
  | succ depth ih => exact next_steady ih

end Level

/-! ## Whole texts -/

/-- A token that is left over is one of the tokens too. -/
theorem Parser.Takes.blames_whole {α : Type} {digits : Nat} {p : Parser α} {ts : List Token}
    {e : ParseFailure} (hp : Takes digits p) (h : p.whole ts = .error e) : e.Blames digits ts := by
  rw [Parser.whole] at h
  split at h
  next => cases h
  next t rest hrest =>
    cases h
    intro u hu
    obtain rfl := Option.mem_some_iff.1 hu
    exact (hp.suffix hrest).mem List.mem_cons_self
  next hfail =>
    cases h
    exact hp.blames hfail

section

variable {depth : Nat} {ts : List Token} {m : Ann Module}

theorem unit_of_moduleOfTokens (h : moduleOfTokens depth ts = .ok m) :
    (Level.ofDepth numeralLimit depth).unit ts = .ok (m, []) := Parser.whole_eq_ok.1 h

/-- All the tokens of a module are usable. -/
theorem usable_of_moduleOfTokens (h : moduleOfTokens depth ts = .ok m) :
    ∀ t ∈ ts, t.Usable numeralLimit := by
  obtain ⟨us, hus, hused⟩ :=
    (Level.ofDepth_steady numeralLimit depth).unit.used (unit_of_moduleOfTokens h)
  rw [List.append_nil] at hus
  rw [Level.digits_ofDepth] at hused
  exact hus ▸ hused

/-- A token after a module is one too many. -/
theorem moduleOfTokens_append (h : moduleOfTokens depth ts = .ok m) (t : Token)
    (more : List Token) :
    moduleOfTokens depth (ts ++ t :: more) = .error (.unexpected .endOfInput (some t)) := by
  have hunit := unit_of_moduleOfTokens h
  obtain ⟨-, hmore⟩ := (Level.ofDepth_steady numeralLimit depth).unit_closes hunit
  have hfull := @hmore (t :: more) fun _ => trivial
  rw [moduleOfTokens, Parser.whole, hfull]
  rfl

/-- Only a long integer is not converted. -/
theorem long_of_moduleOfTokens {e : ConversionError}
    (h : moduleOfTokens depth ts = .error (.conversion e)) :
    e = .longNumeral ∧ ∃ t ∈ ts, ¬ t.Short numeralLimit := by
  have hblames := (Level.ofDepth_steady numeralLimit depth).unit.blames_whole h
  rwa [Level.digits_ofDepth] at hblames

end

end CallGraph
