import CallGraph.Proofs.Parsing.Steady
import CallGraph.Proofs.Regrouping
import Mathlib.Data.List.Forall2

/-!
Parsers that do the same on short token lists. Two parsers agree on fewer than `n` tokens if they
take the same tokens and give values that look the same, or fail in the same way; the first one may
also give up because the text nests too deeply, if that is allowed. There is one rule for each way
to make a parser from others. After a symbol there is one token less, so that the parsers of two
levels agree on one token more than those of the levels below them.
-/

namespace CallGraph

namespace Parser

variable {α β α' β' : Type} {deep : Prop} {n m : Nat} {s : String}

/-- What two parsers may give on the same tokens, if they leave at most `n` of them. -/
inductive Meets (deep : Prop) (n : Nat) (f : α → β) :
    Except ParseFailure (α × List Token) → Except ParseFailure (α × List Token) → Prop
  | ok {x y : α} {rest : List Token} : f x = f y → rest.length ≤ n →
      Meets deep n f (.ok (x, rest)) (.ok (y, rest))
  | error {e : ParseFailure} : e ≠ .tooDeep → Meets deep n f (.error e) (.error e)
  | deep {r : Except ParseFailure (α × List Token)} : deep → Meets deep n f (.error .tooDeep) r

/-- On fewer than `n` tokens the parsers do the same, and give the same as far as `f` tells. If
`deep` holds, the first one may find that the text nests too deeply. -/
def Agrees (deep : Prop) (n : Nat) (f : α → β) (p q : Parser α) : Prop :=
  ∀ ts : List Token, ts.length < n → Meets deep ts.length f (p ts) (q ts)

namespace Meets

variable {f : α → β} {r r' : Except ParseFailure (α × List Token)}

theorem mono (h : Meets deep n f r r') (hnm : n ≤ m) : Meets deep m f r r' := by
  cases h with
  | ok hxy hrest => exact .ok hxy (Nat.le_trans hrest hnm)
  | error he => exact .error he
  | deep hdeep => exact .deep hdeep

theorem imp {f' : α → β'} (h : Meets deep n f r r') (hf : ∀ x y, f x = f y → f' x = f' y) :
    Meets deep n f' r r' := by
  cases h with
  | ok hxy hrest => exact .ok (hf _ _ hxy) hrest
  | error he => exact .error he
  | deep hdeep => exact .deep hdeep

end Meets

namespace Agrees

variable {f : α → β} {p q p' q' : Parser α}

theorem mono (h : Agrees deep n f p q) (hmn : m ≤ n) : Agrees deep m f p q :=
  fun ts hts => h ts (Nat.lt_of_lt_of_le hts hmn)

theorem imp {f' : α → β'} (h : Agrees deep n f p q) (hf : ∀ x y, f x = f y → f' x = f' y) :
    Agrees deep n f' p q :=
  fun ts hts => (h ts hts).imp hf

theorem zero (f : α → β) (p q : Parser α) : Agrees deep 0 f p q :=
  fun _ h => absurd h (Nat.not_lt_zero _)

/-- A parser that leaves the tokens as they are. -/
theorem of_ok {g g' : List Token → α} (hp : ∀ ts, p ts = .ok (g ts, ts))
    (hq : ∀ ts, q ts = .ok (g' ts, ts)) (h : ∀ ts, f (g ts) = f (g' ts)) : Agrees deep n f p q := by
  intro ts _
  rw [hp, hq]
  exact .ok (h ts) (Nat.le_refl _)

theorem pure {x y : α} (h : f x = f y) : Agrees deep n f (Pure.pure x) (Pure.pure y) :=
  of_ok (fun _ => rfl) (fun _ => rfl) fun _ => h

theorem fail (wanted : Expectation) :
    Agrees deep n f (Parser.fail wanted) (Parser.fail wanted) :=
  fun _ _ => .error fun h => by cases h

theorem tooDeep (h : deep) (q : Parser α) : Agrees deep n f Parser.tooDeep q := fun _ _ => .deep h

/-- What follows may depend on what is known of the values of the second parser. -/
theorem bind_of {g : α' → β'} {k k' : α → Parser α'} {P : α → Prop} (hp : Agrees deep n f p q)
    (hP : ∀ ts x rest, q ts = .ok (x, rest) → P x)
    (hk : ∀ x y, f x = f y → P y → Agrees deep n g (k x) (k' y)) :
    Agrees deep n g (p >>= k) (q >>= k') := by
  intro ts hts
  change Meets deep ts.length g (Except.bind (p ts) fun r => k r.1 r.2)
    (Except.bind (q ts) fun r => k' r.1 r.2)
  have hpq := hp ts hts
  generalize p ts = r at hpq
  generalize hq : q ts = r' at hpq
  cases hpq with
  | ok hxy hrest =>
    have hrun := hk _ _ hxy (hP _ _ _ hq) _ (Nat.lt_of_le_of_lt hrest hts)
    exact hrun.mono hrest
  | error he => exact .error he
  | deep hdeep => exact .deep hdeep

theorem bind {g : α' → β'} {k k' : α → Parser α'} (hp : Agrees deep n f p q)
    (hk : ∀ x y, f x = f y → Agrees deep n g (k x) (k' y)) :
    Agrees deep n g (p >>= k) (q >>= k') :=
  hp.bind_of (P := fun _ => True) (fun _ _ _ _ => trivial) fun x y hxy _ => hk x y hxy

/-- A parser that gives the same value, and what follows for each value. -/
theorem andThen {g : α' → β'} {k k' : α → Parser α'} (hp : Agrees deep n id p q)
    (hk : ∀ x, Agrees deep n g (k x) (k' x)) : Agrees deep n g (p >>= k) (q >>= k') := by
  refine hp.bind fun x y hxy => ?_
  obtain rfl : x = y := hxy
  exact hk x

theorem map {g : α → α'} {f' : α' → β'} (hp : Agrees deep n f p q)
    (h : ∀ x y, f x = f y → f' (g x) = f' (g y)) : Agrees deep n f' (g <$> p) (g <$> q) := by
  rw [map_eq_pure_bind, map_eq_pure_bind]
  exact hp.bind fun x y hxy => pure (h x y hxy)

/-- A parser that does not turn to other levels. -/
theorem same (hp : ∀ ts x rest, p ts = .ok (x, rest) → rest.length ≤ ts.length)
    (hdeep : ∀ ts, p ts ≠ .error .tooDeep) : Agrees deep n f p p := by
  intro ts _
  cases hts : p ts with
  | ok r => exact .ok rfl (hp ts r.1 r.2 hts)
  | error e =>
    refine .error ?_
    rintro rfl
    exact hdeep ts hts

theorem converted (c : Except ConversionError α) :
    Agrees deep n f (Parser.converted c) (Parser.converted c) := by
  intro ts _
  cases c with
  | ok x => exact .ok rfl (Nat.le_refl _)
  | error e => exact .error fun h => by cases h

theorem remaining : Agrees deep n id Parser.remaining Parser.remaining :=
  of_ok (g := List.length) (fun _ => rfl) (fun _ => rfl) fun _ => rfl

theorem ahead (s : String) : Agrees deep n id (Parser.ahead s) (Parser.ahead s) :=
  of_ok (g := startsWith s) (fun _ => rfl) (fun _ => rfl) fun _ => rfl

theorem ite {b : Bool} (hp : Agrees deep n f p q) (hp' : Agrees deep n f p' q') :
    Agrees deep n f (if b then p else p') (if b then q else q') := by
  cases b
  · exact hp'
  · exact hp

/-- A way that is chosen by a look at the tokens. -/
theorem peek {g : List Token → Bool} (hp : Agrees deep n f p q) (hp' : Agrees deep n f p' q') :
    Agrees deep n f (do if g (← MonadState.get) then p else p')
      (do if g (← MonadState.get) then q else q') := by
  have hget : Agrees deep n id (MonadState.get : Parser (List Token)) MonadState.get :=
    of_ok (g := id) (fun _ => rfl) (fun _ => rfl) fun _ => rfl
  exact hget.andThen fun ts => ite hp hp'

/-! ## Symbols and words -/

/-- Cases for the same symbols, with parsers that agree. -/
def Cases (deep : Prop) (n : Nat) (f : α → β) (cases cases' : List (String × Parser α)) : Prop :=
  List.Forall₂ (fun c c' => c.1 = c'.1 ∧ Agrees deep n f c.2 c'.2) cases cases'

theorem Cases.find? {cases cases' : List (String × Parser α)} (h : Cases deep n f cases cases')
    (t : Token) :
    (∃ c c', cases.find? (t.is ·.1) = some c ∧ cases'.find? (t.is ·.1) = some c' ∧
      Agrees deep n f c.2 c'.2) ∨
    (cases.find? (t.is ·.1) = none ∧ cases'.find? (t.is ·.1) = none) := by
  induction h with
  | nil => exact .inr ⟨rfl, rfl⟩
  | @cons c c' cases cases' hc _ ih =>
    rw [List.find?_cons, List.find?_cons, ← hc.1]
    cases t.is c.1 with
    | true => exact .inl ⟨c, c', rfl, rfl, hc.2⟩
    | false => exact ih

/-- After a symbol there is one token less. -/
theorem onSymbol {cases cases' : List (String × Parser α)} (hcases : Cases deep n f cases cases')
    (hp : Agrees deep (n + 1) f p q) :
    Agrees deep (n + 1) f (Parser.onSymbol cases p) (Parser.onSymbol cases' q) := by
  intro ts hts
  cases ts with
  | nil => exact hp [] hts
  | cons t ts =>
    rw [Parser.onSymbol, Parser.onSymbol]
    rcases hcases.find? t with ⟨c, c', hc, hc', hagrees⟩ | ⟨hc, hc'⟩
    · rw [hc, hc']
      exact (hagrees ts (Nat.lt_of_succ_lt_succ hts)).mono (Nat.le_succ _)
    · rw [hc, hc']
      exact hp (t :: ts) hts

theorem onSymbol_one (hp : Agrees deep n f p q) (hp' : Agrees deep (n + 1) f p' q') :
    Agrees deep (n + 1) f (Parser.onSymbol [(s, p)] p') (Parser.onSymbol [(s, q)] q') :=
  onSymbol (.cons ⟨rfl, hp⟩ .nil) hp'

/-- As many tokens as before the symbol are more than enough after it. -/
theorem onSymbol_flat {cases cases' : List (String × Parser α)}
    (hcases : Cases deep n f cases cases') (hp : Agrees deep n f p q) :
    Agrees deep n f (Parser.onSymbol cases p) (Parser.onSymbol cases' q) := by
  cases n with
  | zero => exact zero f _ _
  | succ n => exact onSymbol (hcases.imp fun _ _ h => ⟨h.1, h.2.mono (Nat.le_succ n)⟩) hp

theorem onSymbol_one_flat (hp : Agrees deep n f p q) (hp' : Agrees deep n f p' q') :
    Agrees deep n f (Parser.onSymbol [(s, p)] p') (Parser.onSymbol [(s, q)] q') :=
  onSymbol_flat (.cons ⟨rfl, hp⟩ .nil) hp'

theorem onKeyword {cases cases' : List (String × Parser α)} (hcases : Cases deep n f cases cases')
    (hp : Agrees deep (n + 1) f p q) :
    Agrees deep (n + 1) f (Parser.onKeyword cases p) (Parser.onKeyword cases' q) :=
  peek (onSymbol hcases hp) hp

theorem onKeyword_flat {cases cases' : List (String × Parser α)}
    (hcases : Cases deep n f cases cases') (hp : Agrees deep n f p q) :
    Agrees deep n f (Parser.onKeyword cases p) (Parser.onKeyword cases' q) :=
  peek (onSymbol_flat hcases hp) hp

theorem expect (s : String) : Agrees deep n id (Parser.expect s) (Parser.expect s) :=
  onSymbol_one_flat (pure rfl) (fail _)

/-- What follows a symbol has one token less. -/
theorem expect_bind {k k' : Unit → Parser α} (hk : Agrees deep n f (k ()) (k' ())) :
    Agrees deep (n + 1) f (Parser.expect s >>= k) (Parser.expect s >>= k') := by
  have heq (k : Unit → Parser α) :
      (Parser.expect s >>= k) = Parser.onSymbol [(s, k ())] (Parser.fail (.symbol s)) := by
    funext ts
    change Except.bind (Parser.expect s ts) (fun r => k r.1 r.2) = _
    rw [Parser.expect, onSymbol_single, onSymbol_single]
    split <;> rfl
  rw [heq, heq]
  exact onSymbol_one hk (fail _)

theorem accept (s : String) : Agrees deep n id (Parser.accept s) (Parser.accept s) :=
  onSymbol_one_flat (pure rfl) (pure rfl)

theorem expectKind (k : Kind) : Agrees deep n id (Parser.expectKind k) (Parser.expectKind k) := by
  refine same (fun ts x rest h => ?_) fun ts h => ?_
  · obtain ⟨t, -, -, rfl⟩ := expectKind_eq_ok.1 h
    exact Nat.le_succ _
  · cases ts with
    | nil => cases h
    | cons t ts =>
      rw [Parser.expectKind] at h
      split at h <;> cases h

theorem literal? (limit : Nat) :
    Agrees deep n id (Parser.literal? limit) (Parser.literal? limit) := by
  refine same (fun ts x rest h => ?_) fun ts h => ?_
  · rcases literal?_eq_ok.1 h with ⟨t, _, -, -, rfl⟩ | ⟨-, rfl, -⟩
    · exact Nat.le_succ _
    · exact Nat.le_refl _
  · cases ts with
    | nil => cases h
    | cons t ts =>
      rw [Parser.literal?] at h
      split at h <;> cases h

theorem var? : Agrees deep n id Parser.var? Parser.var? := by
  refine same (fun ts x rest h => ?_) fun ts h => ?_
  · rcases var?_eq_ok.1 h with ⟨t, -, -, rfl⟩ | ⟨-, rfl, -⟩
    · exact Nat.le_succ _
    · exact Nat.le_refl _
  · cases ts with
    | nil => cases h
    | cons t ts =>
      rw [Parser.var?] at h
      split at h <;> cases h

/-! ## Loops -/

theorem commaItems (hp : Agrees deep n f p q) (k : Nat) :
    Agrees deep n (List.map f) (Parser.commaItems p k) (Parser.commaItems q k) := by
  induction k with
  | zero => exact pure rfl
  | succ k ih =>
    refine onSymbol_one_flat (hp.bind fun x y hx => ih.bind fun xs ys hxs => pure ?_) (pure rfl)
    rw [List.map_cons, List.map_cons, hx, hxs]

theorem items (hp : Agrees deep n f p q) :
    Agrees deep n (List.map f) (Parser.items p) (Parser.items q) := by
  refine hp.bind fun x y hx => remaining.andThen fun k => (hp.commaItems k).bind fun xs ys hxs =>
    pure ?_
  rw [List.map_cons, List.map_cons, hx, hxs]

theorem sequence (hp : Agrees deep n f p q) (close : String) :
    Agrees deep n (List.map f) (Parser.sequence p close) (Parser.sequence q close) :=
  onSymbol_one_flat (pure rfl)
    (hp.items.bind fun _ _ hxs => (expect close).andThen fun _ => pure hxs)

theorem itemsBefore (hp : Agrees deep n f p q) (stop : String) (k : Nat) :
    Agrees deep n (List.map f) (Parser.itemsBefore p stop k) (Parser.itemsBefore q stop k) := by
  induction k with
  | zero =>
    refine (ahead stop).andThen fun _ => ite (pure rfl) (hp.bind fun x y hx => pure ?_)
    rw [List.map_singleton, List.map_singleton, hx]
  | succ k ih =>
    refine (ahead stop).andThen fun _ => ite (pure rfl)
      (hp.bind fun x y hx => ih.bind fun xs ys hxs => pure ?_)
    rw [List.map_cons, List.map_cons, hx, hxs]

theorem cells (hp : Agrees deep n f p q) (k : Nat) :
    Agrees deep n (Prod.map (List.map f) (Option.map f)) (Parser.cells p k) (Parser.cells q k) := by
  induction k with
  | zero =>
    refine hp.items.bind fun xs ys hxs => (expect "]").andThen fun _ => pure ?_
    rw [Prod.map_apply, Prod.map_apply, hxs]
  | succ k ih =>
    refine hp.items.bind fun xs ys hxs => (accept "|").andThen fun _ => ite (peek ?_ ?_)
      ((expect "]").andThen fun _ => pure ?_)
    · refine (expect "[").andThen fun _ => ih.bind fun c c' hc => (expect "]").andThen fun _ =>
        pure ?_
      rw [Prod.ext_iff] at hc
      exact Prod.ext (by simpa [hxs] using hc.1) hc.2
    · refine hp.bind fun x y hx => (expect "]").andThen fun _ => pure ?_
      rw [Prod.map_apply, Prod.map_apply, hxs, Option.map_some, Option.map_some, hx]
    · rw [Prod.map_apply, Prod.map_apply, hxs]

end Agrees

end Parser

open CallGraph.Parser

variable {deep : Prop} {n m : Nat} {g : Transform}

/-- The parsers of two levels agree on fewer than `n` tokens, apart from how lists are grouped. -/
structure Level.Agrees (deep : Prop) (n : Nat) (g : Transform) (l l' : Level) : Prop where
  digits : l.digits = l'.digits
  const : Parser.Agrees deep n (g.ann g.const) l.const l'.const
  atom : Parser.Agrees deep n (g.ann id) l.atom l'.atom
  var : Parser.Agrees deep n (g.ann id) l.var l'.var
  funName : Parser.Agrees deep n (g.ann id) l.funName l'.funName
  pattern : Parser.Agrees deep n (g.ann g.pattern) l.pattern l'.pattern
  expr : Parser.Agrees deep n (g.ann g.expr) l.expr l'.expr
  unit : Parser.Agrees deep n (g.ann g.unit) l.unit l'.unit

theorem Transform.ann_eq_ann {α : Type} {f : α → α} {x y : Ann α} :
    g.ann f x = g.ann f y ↔
      f x.node = f y.node ∧ g.notes x.annotations = g.notes y.annotations := by
  rw [Transform.ann, Transform.ann, Ann.mk.injEq]

/-- Whether an expression is a function. -/
def Expr.isLambda : Expr → Bool
  | .lambda .. => true
  | _ => false

theorem Transform.isLambda_expr (g : Transform) (e : Expr) :
    (g.expr e).isLambda = e.isLambda := by
  cases e <;> rfl

theorem Level.definition_eq (l : Level) : l.definition = (do
    let name ← l.funName
    expect "="
    let function ← l.expr
    if function.node.isLambda then return ⟨⟨name.node, function⟩, name.annotations⟩
    else fail (.function name.node)) := by
  refine bind_congr fun name => bind_congr fun _ => bind_congr fun function => ?_
  cases function.node <;> rfl

namespace Level.Agrees

variable {α β γ α' β' γ' : Type} {l l' : Level}

/-! ## Constants -/

theorem segment {value value' : Parser α} {modifier modifier' : Parser β} {f : α → α'}
    {h : β → β'} (hvalue : Parser.Agrees deep n f value value')
    (hmodifier : Parser.Agrees deep n h modifier modifier') :
    Parser.Agrees deep n (Prod.map f (List.map h)) (Level.segment value modifier)
      (Level.segment value' modifier') := by
  refine (Agrees.expect "#<").andThen fun _ => hvalue.bind fun x y hx =>
    (Agrees.expect ">").andThen fun _ => (Agrees.expect "(").andThen fun _ =>
    (hmodifier.sequence ")").bind fun xs ys hxs => .pure ?_
  rw [Prod.map_apply, Prod.map_apply, hx, hxs]

theorem fullSegment {value value' : Parser α} {modifier modifier' : Parser β}
    {make : α → β → β → β → β → γ} {f : α → α'} {h : β → β'} {f' : γ → γ'}
    (hvalue : Parser.Agrees deep n f value value')
    (hmodifier : Parser.Agrees deep n h modifier modifier')
    (hmake : ∀ x x' a a' b b' c c' d d', f x = f x' → h a = h a' → h b = h b' → h c = h c' →
      h d = h d' → f' (make x a b c d) = f' (make x' a' b' c' d')) :
    Parser.Agrees deep n f' (Level.fullSegment value modifier make)
      (Level.fullSegment value' modifier' make) := by
  refine (segment hvalue hmodifier).bind fun s s' hs => ?_
  obtain ⟨x, ms⟩ := s
  obtain ⟨x', ms'⟩ := s'
  obtain ⟨hx, hms⟩ := Prod.ext_iff.1 hs
  -- There are as many modifiers here as there.
  dsimp only [Prod.map_apply] at hx hms
  dsimp only
  split
  next a b c d =>
    obtain ⟨a', _, rfl, ha, hms⟩ := List.map_eq_cons_iff.1 hms.symm
    obtain ⟨b', _, rfl, hb, hms⟩ := List.map_eq_cons_iff.1 hms
    obtain ⟨c', _, rfl, hc, hms⟩ := List.map_eq_cons_iff.1 hms
    obtain ⟨d', _, rfl, hd, hms⟩ := List.map_eq_cons_iff.1 hms
    obtain rfl := List.map_eq_nil_iff.1 hms
    exact .pure (hmake _ _ _ _ _ _ _ _ _ _ hx ha.symm hb.symm hc.symm hd.symm)
  next hno =>
    split
    next a b c d =>
      obtain ⟨a', _, rfl, -, hms⟩ := List.map_eq_cons_iff.1 hms
      obtain ⟨b', _, rfl, -, hms⟩ := List.map_eq_cons_iff.1 hms
      obtain ⟨c', _, rfl, -, hms⟩ := List.map_eq_cons_iff.1 hms
      obtain ⟨d', _, rfl, -, hms⟩ := List.map_eq_cons_iff.1 hms
      obtain rfl := List.map_eq_nil_iff.1 hms
      exact absurd rfl (hno a' b' c' d')
    next => exact .fail _

theorem mapOp : Parser.Agrees deep n id Level.mapOp Level.mapOp :=
  .onSymbol_flat (.cons ⟨rfl, .pure rfl⟩ (.cons ⟨rfl, .pure rfl⟩ .nil)) (.fail _)

theorem bracketed {item item' : Parser α} {f : α → α'} {nil : β} {list : List α → Option α → β}
    {h : β → β'} (hitem : Parser.Agrees deep n f item item')
    (hlist : ∀ xs ys tail tail', xs.map f = ys.map f → tail.map f = tail'.map f →
      h (list xs tail) = h (list ys tail')) :
    Parser.Agrees deep n h (Level.bracketed item nil list) (Level.bracketed item' nil list) := by
  rw [bracketed_eq, bracketed_eq]
  refine .onSymbol_one_flat (.pure rfl) (Agrees.remaining.andThen fun k =>
    (hitem.cells k).bind fun c c' hc => .pure ?_)
  exact hlist _ _ _ _ (Prod.ext_iff.1 hc).1 (Prod.ext_iff.1 hc).2

variable (hl : l.Agrees deep n g l')

include hl

theorem bareFunName : Parser.Agrees deep m id l.bareFunName l'.bareFunName := by
  rw [Level.bareFunName, Level.bareFunName, hl.digits]
  exact (Agrees.expectKind .atom).andThen fun _ => (Agrees.expect "/").andThen fun _ =>
    (Agrees.expectKind .integer).andThen fun _ => (Agrees.converted _).andThen fun _ => .pure rfl

theorem constant : Parser.Agrees deep n g.const l.constant l'.constant :=
  hl.const.bind fun _ _ h => .pure (Transform.ann_eq_ann.1 h).1

theorem annotations :
    Parser.Agrees deep n (List.map g.const) l.annotations l'.annotations :=
  .onSymbol_one_flat ((Agrees.expect "[").andThen fun _ => hl.constant.sequence "]") (.pure rfl)

theorem closing : Parser.Agrees deep n g.notes l.closing l'.closing :=
  hl.annotations.bind fun _ _ h => (Agrees.expect ")").andThen fun _ => .pure (g.notes_congr h)

/-- What is in parentheses comes after a token. -/
theorem annotated {inner inner' : Parser (Ann α)} {bare bare' : Parser α} {f : α → α}
    (hinner : Parser.Agrees deep n (g.ann f) inner inner')
    (hbare : Parser.Agrees deep (n + 1) f bare bare') :
    Parser.Agrees deep (n + 1) (g.ann f) (l.annotated inner bare) (l'.annotated inner' bare') := by
  refine .onSymbol_one (hinner.bind fun x y hx => hl.closing.bind fun more more' hmore => .pure ?_)
    (hbare.map fun x y hx => ?_)
  · rw [Transform.ann_eq_ann] at hx ⊢
    exact ⟨hx.1, by rw [g.notes_append, g.notes_append, hx.2, hmore]⟩
  · exact Transform.ann_eq_ann.2 ⟨hx, rfl⟩

theorem constSegment :
    Parser.Agrees deep n (List.map g.const) l.constSegment l'.constSegment := by
  refine (segment hl.constant hl.constant).bind fun s s' hs => .pure ?_
  obtain ⟨hvalue, hmodifiers⟩ := Prod.ext_iff.1 hs
  exact List.cons_eq_cons.2 ⟨hvalue, hmodifiers⟩

theorem constPair :
    Parser.Agrees deep n (Prod.map g.const g.const) l.constPair l'.constPair :=
  hl.constant.bind fun _ _ hkey => mapOp.andThen fun _ => hl.constant.bind fun _ _ hvalue =>
    .pure (Prod.ext hkey hvalue)

theorem constCases : Agrees.Cases deep n g.const l.constCases l'.constCases :=
  .cons ⟨rfl, (hl.constant.sequence _).map fun _ _ h => by simp [Transform.const, h]⟩ <|
  .cons ⟨rfl, bracketed hl.constant fun _ _ _ _ hxs htail => by
    simp [Transform.const, hxs, htail]⟩ <|
  .cons ⟨rfl, (hl.constSegment.sequence _).map fun _ _ h => by simp [Transform.const, h]⟩ <|
  .cons ⟨rfl, (hl.constPair.sequence _).map fun _ _ h => by simp [Transform.const, h]⟩ .nil

theorem bareConst : Parser.Agrees deep (n + 1) g.const l.bareConst l'.bareConst := by
  rw [Level.bareConst, Level.bareConst, hl.digits]
  refine (Agrees.literal? _).andThen fun value => ?_
  cases value with
  | some value => exact .pure rfl
  | none => exact .onSymbol hl.constCases (.fail _)

/-! ## Names, variables and patterns -/

theorem variableName : Parser.Agrees deep n id l.variableName l'.variableName :=
  hl.var.bind fun _ _ h => .pure (Transform.ann_eq_ann.1 h).1

theorem varList : Parser.Agrees deep n id l.varList l'.varList := by
  have hsequence : Parser.Agrees deep n id (sequence l.variableName ">")
      (sequence l'.variableName ">") := by
    simpa using hl.variableName.sequence ">"
  exact .onSymbol_one_flat hsequence (hl.variableName.andThen fun _ => .pure rfl)

theorem plainPattern : Parser.Agrees deep n g.pattern l.plainPattern l'.plainPattern :=
  hl.pattern.bind fun _ _ h => .pure (Transform.ann_eq_ann.1 h).1

theorem patterns : Parser.Agrees deep n (List.map g.pattern) l.patterns l'.patterns :=
  .onSymbol_one_flat (hl.plainPattern.sequence ">")
    (hl.plainPattern.bind fun _ _ h => .pure (by rw [List.map_singleton, List.map_singleton, h]))

theorem patternSegment :
    Parser.Agrees deep n g.patternSegment l.patternSegment l'.patternSegment :=
  fullSegment hl.plainPattern hl.expr fun _ _ _ _ _ _ _ _ _ _ hx ha hb hc hd => by
    simp [Transform.patternSegment, hx, ha, hb, hc, hd]

theorem patternPair : Parser.Agrees deep n g.patternPair l.patternPair l'.patternPair :=
  hl.expr.bind fun _ _ hkey => (Agrees.expect ":=").andThen fun _ =>
    hl.plainPattern.bind fun _ _ hp => .pure (by simp [Transform.patternPair, hkey, hp])

theorem patternCases : Agrees.Cases deep n g.pattern l.patternCases l'.patternCases :=
  .cons ⟨rfl, bracketed hl.plainPattern fun _ _ _ _ hxs htail => by
    simp [Transform.pattern, hxs, htail]⟩ <|
  .cons ⟨rfl, (hl.plainPattern.sequence _).map fun _ _ h => by simp [Transform.pattern, h]⟩ <|
  .cons ⟨rfl, (hl.patternSegment.sequence _).map fun _ _ h => by simp [Transform.pattern, h]⟩ <|
  .cons ⟨rfl, (hl.patternPair.sequence _).map fun _ _ h => by simp [Transform.pattern, h]⟩ .nil

theorem barePattern : Parser.Agrees deep (n + 1) g.pattern l.barePattern l'.barePattern := by
  rw [Level.barePattern, Level.barePattern, hl.digits]
  refine Agrees.var?.andThen fun name => ?_
  cases name with
  | some name =>
    exact .onSymbol_one (hl.plainPattern.map fun _ _ h => by simp [Transform.pattern, h])
      (.pure rfl)
  | none =>
    refine (Agrees.literal? _).andThen fun value => ?_
    cases value with
    | some value => exact .pure rfl
    | none => exact .onSymbol hl.patternCases (.fail _)

/-! ## Clauses and definitions -/

theorem clauseRest {ps qs : List Pattern} (h : ps.map g.pattern = qs.map g.pattern) :
    Parser.Agrees deep n g.clause (l.clauseRest ps) (l'.clauseRest qs) :=
  (Agrees.expect "when").andThen fun _ => hl.expr.bind fun _ _ hguard =>
    (Agrees.expect "->").andThen fun _ => hl.expr.bind fun _ _ hbody =>
    .pure (by simp [Transform.clause, h, hguard, hbody])

theorem wrappedClause {ps qs : List Pattern} (h : ps.map g.pattern = qs.map g.pattern) :
    Parser.Agrees deep n (g.ann g.clause) (l.wrappedClause ps) (l'.wrappedClause qs) :=
  (hl.clauseRest h).bind fun _ _ hclause => hl.closing.bind fun _ _ hmore =>
    .pure (Transform.ann_eq_ann.2 ⟨hclause, hmore⟩)

theorem plainClause : Parser.Agrees deep n (g.ann g.clause) l.plainClause l'.plainClause :=
  hl.patterns.bind fun _ _ hps => (hl.clauseRest hps).bind fun _ _ hclause =>
    .pure (Transform.ann_eq_ann.2 ⟨hclause, rfl⟩)

/-- The patterns that are read first leave the same tokens, so that both go on in the same way. -/
theorem clause : Parser.Agrees deep n (g.ann g.clause) l.clause l'.clause := by
  intro ts hts
  cases hparen : startsWith "(" ts with
  | false =>
    rw [clause_plain hparen, clause_plain hparen]
    exact hl.plainClause ts hts
  | true =>
    obtain ⟨o, us, ho, rfl⟩ := startsWith_iff.1 hparen
    rw [clause_paren ho, clause_paren ho]
    have hus : us.length < n := Nat.lt_of_succ_lt hts
    have hps := hl.patterns us hus
    generalize l.patterns us = r, l'.patterns us = r' at hps
    cases hps with
    | error he => exact .error he
    | deep hdeep => exact .deep hdeep
    | @ok ps qs rest h hrest =>
      dsimp only [Except.bind]
      split
      · have hwrapped := hl.wrappedClause h rest (Nat.lt_of_le_of_lt hrest hus)
        exact hwrapped.mono (Nat.le_succ_of_le hrest)
      · exact hl.plainClause (o :: us) hts

theorem clauses (stop : String) :
    Parser.Agrees deep n (List.map (g.ann g.clause)) (l.clauses stop) (l'.clauses stop) :=
  Agrees.remaining.andThen fun k => (hl.clause.itemsBefore stop k).bind fun _ _ h =>
    (Agrees.expect stop).andThen fun _ => .pure h

theorem definition :
    Parser.Agrees deep n (g.ann g.definition) l.definition l'.definition := by
  rw [definition_eq, definition_eq]
  refine hl.funName.bind fun name name' hname => (Agrees.expect "=").andThen fun _ =>
    hl.expr.bind fun e e' he => ?_
  obtain ⟨hnode, hmore⟩ := Transform.ann_eq_ann.1 hname
  obtain hnode : name.node = name'.node := hnode
  have hlambda : e.node.isLambda = e'.node.isLambda := by
    rw [← g.isLambda_expr, (Transform.ann_eq_ann.1 he).1, g.isLambda_expr]
  rw [hlambda, hnode]
  refine .ite (.pure (Transform.ann_eq_ann.2 ⟨?_, hmore⟩)) (.fail _)
  simp [Transform.definition, he]

theorem definitions (stop : String) :
    Parser.Agrees deep n (List.map (g.ann g.definition)) (l.definitions stop)
      (l'.definitions stop) :=
  Agrees.remaining.andThen fun k => (hl.definition.itemsBefore stop k).bind fun _ _ h =>
    (Agrees.expect stop).andThen fun _ => .pure h

/-! ## Expressions -/

theorem exprSegment : Parser.Agrees deep n g.segment l.exprSegment l'.exprSegment :=
  fullSegment hl.expr hl.expr fun _ _ _ _ _ _ _ _ _ _ hx ha hb hc hd => by
    simp [Transform.segment, hx, ha, hb, hc, hd]

theorem mapPair : Parser.Agrees deep n g.mapPair l.mapPair l'.mapPair :=
  hl.expr.bind fun _ _ hkey => mapOp.andThen fun _ => hl.expr.bind fun _ _ hvalue =>
    .pure (by simp [Transform.mapPair, hkey, hvalue])

theorem mapPairs : Parser.Agrees deep n (List.map g.mapPair) l.mapPairs l'.mapPairs :=
  (Agrees.ahead _).andThen fun _ => (Agrees.ahead _).andThen fun _ =>
    .ite (.pure rfl) hl.mapPair.items

theorem mapBody : Parser.Agrees deep n g.expr l.mapBody l'.mapBody := by
  have hbase : Parser.Agrees deep n (Option.map (g.ann g.expr))
      (onSymbol [("|", some <$> l.expr)] (pure none))
      (onSymbol [("|", some <$> l'.expr)] (pure none)) :=
    .onSymbol_one_flat (hl.expr.map fun _ _ h => congrArg some h) (.pure rfl)
  exact hl.mapPairs.bind fun _ _ hpairs => hbase.bind fun _ _ hbase =>
    (Agrees.expect _).andThen fun _ => .pure (by simp [Transform.expr, hpairs, hbase])

theorem arguments :
    Parser.Agrees deep n (List.map (g.ann g.expr)) l.arguments l'.arguments :=
  (Agrees.expect "(").andThen fun _ => hl.expr.sequence ")"

theorem bindingThen {body body' : Parser (Ann Expr)}
    (hbody : Parser.Agrees deep n (g.ann g.expr) body body') :
    Parser.Agrees deep n g.expr (l.bindingThen body) (l'.bindingThen body') :=
  hl.varList.andThen fun _ => (Agrees.expect "=").andThen fun _ => hl.expr.bind fun _ _ hvalue =>
    (Agrees.expect "in").andThen fun _ => hbody.bind fun _ _ hbody =>
    .pure (by simp [Transform.expr, hvalue, hbody])

theorem stepThen {next next' : Parser (Ann Expr)}
    (hnext : Parser.Agrees deep n (g.ann g.expr) next next') :
    Parser.Agrees deep n g.expr (l.stepThen next) (l'.stepThen next') :=
  hl.expr.bind fun _ _ hfirst => hnext.bind fun _ _ hnext =>
    .pure (by simp [Transform.expr, hfirst, hnext])

theorem chain (k : Nat) : Parser.Agrees deep n (g.ann g.expr) (l.chain k) (l'.chain k) := by
  have hplain (e e' : Expr) (h : g.expr e = g.expr e') :
      g.ann g.expr (Ann.plain e) = g.ann g.expr (Ann.plain e') :=
    Transform.ann_eq_ann.2 ⟨h, rfl⟩
  induction k with
  | zero => exact hl.expr
  | succ k ih =>
    exact .onKeyword_flat (.cons ⟨rfl, (hl.bindingThen ih).map hplain⟩
      (.cons ⟨rfl, (hl.stepThen ih).map hplain⟩ .nil)) hl.expr

theorem lambda : Parser.Agrees deep n g.expr l.lambda l'.lambda := by
  refine (Agrees.expect "(").andThen fun _ => (hl.variableName.sequence ")").bind fun xs ys hxs =>
    (Agrees.expect "->").andThen fun _ => hl.expr.bind fun _ _ hbody => .pure ?_
  rw [List.map_id, List.map_id] at hxs
  simp [Transform.expr, hxs, hbody]

theorem letRec : Parser.Agrees deep n g.expr l.letRec l'.letRec :=
  (hl.definitions "in").bind fun _ _ hds => hl.expr.bind fun _ _ hbody =>
    .pure (by simp [Transform.expr, hds, hbody])

theorem caseOf : Parser.Agrees deep n g.expr l.caseOf l'.caseOf :=
  hl.expr.bind fun _ _ hsubject => (Agrees.expect "of").andThen fun _ =>
    (hl.clauses "end").bind fun _ _ hcs => .pure (by simp [Transform.expr, hsubject, hcs])

theorem receive : Parser.Agrees deep n g.expr l.receive l'.receive :=
  (hl.clauses "after").bind fun _ _ hcs => hl.expr.bind fun _ _ htimeout =>
    (Agrees.expect "->").andThen fun _ => hl.expr.bind fun _ _ haction =>
    .pure (by simp [Transform.expr, hcs, htimeout, haction])

theorem apply : Parser.Agrees deep n g.expr l.apply l'.apply :=
  hl.expr.bind fun _ _ hfunction => hl.arguments.bind fun _ _ hargs =>
    .pure (by simp [Transform.expr, hfunction, hargs])

theorem call : Parser.Agrees deep n g.expr l.call l'.call :=
  hl.expr.bind fun _ _ hunit => (Agrees.expect ":").andThen fun _ =>
    hl.expr.bind fun _ _ hfunction => hl.arguments.bind fun _ _ hargs =>
    .pure (by simp [Transform.expr, hunit, hfunction, hargs])

theorem primop : Parser.Agrees deep n g.expr l.primop l'.primop := by
  refine hl.atom.bind fun name name' hname => hl.arguments.bind fun _ _ hargs => .pure ?_
  obtain hnode : name.node = name'.node := (Transform.ann_eq_ann.1 hname).1
  simp [Transform.expr, hnode, hargs]

theorem tryOf : Parser.Agrees deep n g.expr l.tryOf l'.tryOf :=
  hl.expr.bind fun _ _ hbody => (Agrees.expect "of").andThen fun _ => hl.varList.andThen fun _ =>
    (Agrees.expect "->").andThen fun _ => hl.expr.bind fun _ _ hsuccess =>
    (Agrees.expect "catch").andThen fun _ => hl.varList.andThen fun _ =>
    (Agrees.expect "->").andThen fun _ => hl.expr.bind fun _ _ hhandler =>
    .pure (by simp [Transform.expr, hbody, hsuccess, hhandler])

theorem keywordCases : Agrees.Cases deep n g.expr l.keywordCases l'.keywordCases :=
  .cons ⟨rfl, hl.lambda⟩ <| .cons ⟨rfl, hl.letRec⟩ <| .cons ⟨rfl, hl.caseOf⟩ <|
  .cons ⟨rfl, hl.receive⟩ <| .cons ⟨rfl, hl.apply⟩ <| .cons ⟨rfl, hl.call⟩ <|
  .cons ⟨rfl, hl.primop⟩ <| .cons ⟨rfl, hl.tryOf⟩ <|
  .cons ⟨rfl, hl.expr.map fun _ _ h => by simp [Transform.expr, h]⟩ .nil

theorem headCases (k : Nat) : Agrees.Cases deep n g.expr (l.headCases k) (l'.headCases k) :=
  .cons ⟨rfl, hl.bindingThen (hl.chain k)⟩ <| .cons ⟨rfl, hl.stepThen (hl.chain k)⟩ hl.keywordCases

theorem exprCases : Agrees.Cases deep n g.expr l.exprCases l'.exprCases :=
  .cons ⟨rfl, bracketed hl.expr fun _ _ _ _ hxs htail => by
    simp [Transform.expr, hxs, htail]⟩ <|
  .cons ⟨rfl, (hl.expr.sequence _).map fun _ _ h => by simp [Transform.expr, h]⟩ <|
  .cons ⟨rfl, (hl.expr.sequence _).map fun _ _ h => by simp [Transform.expr, h]⟩ <|
  .cons ⟨rfl, (hl.exprSegment.sequence _).map fun _ _ h => by simp [Transform.expr, h]⟩ <|
  .cons ⟨rfl, hl.mapBody⟩ .nil

/-- Here a chain has to be one of the cases: it is read by the level itself only after its first
keyword. -/
theorem compoundExpr : Parser.Agrees deep (n + 1) g.expr l.compoundExpr l'.compoundExpr := by
  intro ts hts
  rw [compoundExpr_apply, compoundExpr_apply]
  exact Agrees.onKeyword (hl.headCases _) (.onSymbol hl.exprCases (.fail _)) ts hts

theorem bareExpr : Parser.Agrees deep (n + 1) g.expr l.bareExpr l'.bareExpr := by
  rw [Level.bareExpr, Level.bareExpr, hl.digits]
  refine Agrees.var?.andThen fun name => ?_
  cases name with
  | some name => exact .pure rfl
  | none =>
    refine .peek (hl.bareFunName.andThen fun _ => .pure rfl) ?_
    refine (Agrees.literal? _).andThen fun value => ?_
    cases value with
    | some value => exact .pure rfl
    | none => exact hl.compoundExpr

/-! ## Modules and levels -/

theorem attributePair :
    Parser.Agrees deep n (Prod.map id g.const) l.attributePair l'.attributePair :=
  hl.atom.bind fun _ _ hkey => (Agrees.expect "=").andThen fun _ =>
    hl.constant.bind fun _ _ hvalue => .pure (Prod.ext (Transform.ann_eq_ann.1 hkey).1 hvalue)

theorem exported : Parser.Agrees deep n id (do return (← l.funName).node)
    (do return (← l'.funName).node) :=
  hl.funName.bind fun _ _ h => .pure (Transform.ann_eq_ann.1 h).1

theorem header : Parser.Agrees deep n g.unit l.header l'.header := by
  refine (Agrees.expect "module").andThen fun _ => (Agrees.expectKind .atom).andThen fun _ =>
    (Agrees.expect "[").andThen fun _ => (hl.exported.sequence "]").bind fun xs ys hxs =>
    (Agrees.expect "attributes").andThen fun _ => (Agrees.expect "[").andThen fun _ =>
    (hl.attributePair.sequence "]").bind fun _ _ hattributes => .pure ?_
  rw [List.map_id, List.map_id] at hxs
  simp [Transform.unit, hxs, hattributes]

theorem bareModule : Parser.Agrees deep (n + 1) g.unit l.bareModule l'.bareModule := by
  refine .expect_bind <| (Agrees.expectKind .atom).andThen fun _ =>
    (Agrees.expect "[").andThen fun _ => (hl.exported.sequence "]").bind fun xs ys hxs =>
    (Agrees.expect "attributes").andThen fun _ => (Agrees.expect "[").andThen fun _ =>
    (hl.attributePair.sequence "]").bind fun _ _ hattributes =>
    (hl.definitions "end").bind fun _ _ hds => .pure ?_
  rw [List.map_id, List.map_id] at hxs
  simp [Transform.unit, hxs, hattributes, hds]

/-- The parsers of the levels above agree on one token more. -/
theorem next : l.next.Agrees deep (n + 1) g l'.next where
  digits := hl.digits
  const := hl.annotated hl.const hl.bareConst
  atom := hl.annotated hl.atom (Agrees.expectKind .atom)
  var := hl.annotated hl.var (Agrees.expectKind .var)
  funName := hl.annotated hl.funName hl.bareFunName
  pattern := hl.annotated hl.pattern hl.barePattern
  expr := hl.annotated hl.expr hl.bareExpr
  unit := hl.annotated hl.unit hl.bareModule

end Level.Agrees

end CallGraph
