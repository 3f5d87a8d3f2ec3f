import CallGraph.Core.Parser.Grammar

/-!
When the small parsers succeed, and with what. Each lemma says it as an equivalence, so that it takes
a run of a parser apart and puts one together.
-/

namespace CallGraph

/-- A token is at most one symbol. -/
theorem Token.is_inj {t : Token} {a b : String} (ha : t.is a) (hb : t.is b) : a = b := by
  simp only [Token.is, Bool.and_eq_true, beq_iff_eq] at ha hb
  exact ha.2.symm.trans hb.2

theorem Token.is_eq_false {t : Token} {a b : String} (ha : t.is a) (hab : a ≠ b) :
    t.is b = false := by
  rw [Bool.eq_false_iff]
  intro hb
  exact hab (Token.is_inj ha hb)

theorem Token.kind_of_is {t : Token} {a : String} (h : t.is a) :
    t.kind = .punct ∨ t.kind = .name := by
  simp only [Token.is, Bool.and_eq_true, Bool.or_eq_true, beq_iff_eq] at h
  exact h.1

/-- The token is the keyword `s`. Marks are no keywords, whatever their text is. -/
structure Token.IsKeyword (t : Token) (s : String) : Prop where
  kind : t.kind = .name
  is : t.is s

theorem Token.kind_ne_var_of_is {t : Token} {a : String} (h : t.is a) : t.kind ≠ .var := by
  rcases Token.kind_of_is h with hk | hk <;> simp [hk]

theorem Token.literal?_of_is {t : Token} {a : String} {limit : Nat} (h : t.is a) :
    t.literal? limit = none := by
  rcases Token.kind_of_is h with hk | hk <;> simp [Token.literal?, hk]

theorem Token.is_of_kind {t : Token} {k : Kind} (s : String) (h : t.kind = k)
    (hk : k ≠ .punct ∧ k ≠ .name) : t.is s = false := by
  simp [Token.is, h, hk.1, hk.2]

namespace Parser

variable {α β : Type} {ts rest : List Token} {s : String}

@[simp] theorem bind_eq_ok {p : Parser α} {f : α → Parser β} {r : β × List Token} :
    (p >>= f) ts = .ok r ↔ ∃ x mid, p ts = .ok (x, mid) ∧ f x mid = .ok r := by
  change Except.bind (p ts) (fun y => f y.1 y.2) = .ok r ↔ _
  cases p ts with
  | error e => simp [Except.bind]
  | ok y => simp [Except.bind, Prod.ext_iff, and_assoc]

theorem bind_of_ok {p : Parser α} {f : α → Parser β} {x : α} {mid : List Token}
    (h : p ts = .ok (x, mid)) : (p >>= f) ts = f x mid := by
  change Except.bind (p ts) (fun y => f y.1 y.2) = _
  rw [h]
  rfl

@[simp] theorem pure_eq_ok {x y : α} :
    (pure x : Parser α) ts = .ok (y, rest) ↔ y = x ∧ rest = ts := by
  change Except.ok (x, ts) = .ok (y, rest) ↔ _
  simp [eq_comm]

@[simp] theorem map_eq_ok {p : Parser α} {f : α → β} {y : β} :
    (f <$> p) ts = .ok (y, rest) ↔ ∃ x, p ts = .ok (x, rest) ∧ y = f x := by
  change Except.bind (p ts) (fun z => Except.ok (f z.1, z.2)) = .ok (y, rest) ↔ _
  cases p ts with
  | error e => simp [Except.bind]
  | ok z => simp [Except.bind, Prod.ext_iff, and_comm, and_left_comm, eq_comm]

@[simp] theorem fail_ne_ok {wanted : Expectation} {r : α × List Token} :
    fail wanted ts ≠ .ok r := by
  simp [fail]

@[simp] theorem throw_ne_ok {e : ParseFailure} {r : α × List Token} :
    (throw e : Parser α) ts ≠ .ok r := by
  change Except.error e ≠ Except.ok r
  simp

@[simp] theorem tooDeep_ne_ok (ts : List Token) {r : α × List Token} : tooDeep ts ≠ .ok r := by
  simp [tooDeep]

@[simp] theorem converted_eq_ok {r : Except ConversionError α} {x : α} :
    converted r ts = .ok (x, rest) ↔ r = .ok x ∧ rest = ts := by
  cases r with
  | error e => simp [converted]
  | ok y =>
    rw [converted, pure_eq_ok]
    simp [eq_comm]

@[simp] theorem get_eq_ok {us : List Token} :
    (get : Parser (List Token)) ts = .ok (us, rest) ↔ us = ts ∧ rest = ts := by
  change Except.ok (ts, ts) = .ok (us, rest) ↔ _
  simp [eq_comm]

@[simp] theorem set_eq_ok {us : List Token} {u : PUnit} :
    (set us : Parser PUnit) ts = .ok (u, rest) ↔ rest = us := by
  change Except.ok (PUnit.unit, us) = .ok (u, rest) ↔ _
  simp [eq_comm]

@[simp] theorem remaining_eq_ok {n : Nat} :
    remaining ts = .ok (n, rest) ↔ n = ts.length ∧ rest = ts := by
  simp [remaining, and_assoc, and_comm]

@[simp] theorem ahead_eq_ok {b : Bool} :
    ahead s ts = .ok (b, rest) ↔ b = startsWith s ts ∧ rest = ts := by
  simp [ahead, and_assoc, and_comm]

/-! ## Symbols -/

theorem startsWith_iff : startsWith s ts ↔ ∃ t us, t.is s ∧ ts = t :: us := by
  cases ts with
  | nil => simp [startsWith]
  | cons t ts => simp [startsWith]

theorem not_isKeyword_of_startsWith (h : startsWith s ts = false) :
    ∀ t ∈ ts.head?, ¬t.IsKeyword s := by
  intro t ht hk
  obtain ⟨us, rfl⟩ := List.head?_eq_some_iff.1 ht
  exact Bool.eq_false_iff.1 h hk.is

theorem onSymbol_single {p otherwise : Parser α} :
    onSymbol [(s, p)] otherwise ts = if startsWith s ts then p ts.tail else otherwise ts := by
  cases ts with
  | nil => rfl
  | cons t ts => cases h : t.is s <;> simp [onSymbol, startsWith, h]

/-- One case is taken if its symbol comes next, otherwise there is the other way. -/
theorem onSymbol_single_eq_ok {p otherwise : Parser α} {r : α × List Token} :
    onSymbol [(s, p)] otherwise ts = .ok r ↔
      (∃ t us, t.is s ∧ ts = t :: us ∧ p us = .ok r) ∨
        (startsWith s ts = false ∧ otherwise ts = .ok r) := by
  rw [onSymbol_single]
  cases ts with
  | nil => simp [startsWith]
  | cons t ts => cases h : t.is s <;> grind [startsWith]

/-- A run of several cases is one of its cases, after its symbol, or the other way. -/
theorem of_onSymbol_eq_ok {cases : List (String × Parser α)} {otherwise : Parser α}
    {r : α × List Token} (h : onSymbol cases otherwise ts = .ok r) :
    (∃ t us c, c ∈ cases ∧ t.is c.1 ∧ ts = t :: us ∧ c.2 us = .ok r) ∨
      ((∀ c ∈ cases, startsWith c.1 ts = false) ∧ otherwise ts = .ok r) := by
  cases ts with
  | nil => exact .inr ⟨fun _ _ => rfl, h⟩
  | cons t ts =>
    rw [onSymbol] at h
    split at h
    next s p hfind =>
      have ht : t.is s := by simpa using List.find?_some hfind
      exact .inl ⟨t, ts, (s, p), List.mem_of_find?_eq_some hfind, ht, rfl, h⟩
    next hfind =>
      rw [List.find?_eq_none] at hfind
      exact .inr ⟨fun c hc => Bool.eq_false_iff.2 (hfind c hc), h⟩

/-- The case of the symbol that comes next is taken, if no other case has this symbol. -/
theorem onSymbol_eq_of_mem {cases : List (String × Parser α)} {otherwise p : Parser α} {t : Token}
    (hcases : (cases.map Prod.fst).Nodup) (hmem : (s, p) ∈ cases) (ht : t.is s) :
    onSymbol cases otherwise (t :: ts) = p ts := by
  have hfind : cases.find? (t.is ·.1) = some (s, p) := by
    induction cases with
    | nil => simp at hmem
    | cons c cases ih =>
      rcases List.mem_cons.1 hmem with rfl | hmem
      · simp [ht]
      · rw [List.map_cons, List.nodup_cons] at hcases
        have hne : t.is c.1 = false := by
          rw [Bool.eq_false_iff]
          intro hc
          rw [Token.is_inj hc ht] at hcases
          exact hcases.1 (List.mem_map_of_mem hmem)
        rw [List.find?_cons, hne]
        exact ih hcases.2 hmem
  rw [onSymbol, hfind]

theorem onSymbol_eq_otherwise {cases : List (String × Parser α)} {otherwise : Parser α}
    (h : ∀ c ∈ cases, startsWith c.1 ts = false) :
    onSymbol cases otherwise ts = otherwise ts := by
  cases ts with
  | nil => rfl
  | cons t ts =>
    have hfind : cases.find? (t.is ·.1) = none := by
      rw [List.find?_eq_none]
      intro c hc
      simpa [startsWith] using h c hc
    rw [onSymbol, hfind]

theorem onSymbol_bind (cases : List (String × Parser α)) (otherwise : Parser α)
    (f : α → Parser β) :
    onSymbol cases otherwise >>= f =
      onSymbol (cases.map fun c => (c.1, c.2 >>= f)) (otherwise >>= f) := by
  funext ts
  cases ts with
  | nil => rfl
  | cons t ts =>
    change Except.bind (onSymbol cases otherwise (t :: ts)) (fun y => f y.1 y.2) = _
    simp only [onSymbol, List.find?_map, Function.comp_def]
    cases cases.find? (t.is ·.1) <;> rfl

theorem onKeyword_apply (cases : List (String × Parser α)) (otherwise : Parser α) :
    onKeyword cases otherwise ts =
      if startsWithName ts then onSymbol cases otherwise ts else otherwise ts := by
  rw [onKeyword, bind_of_ok (get_eq_ok.2 ⟨rfl, rfl⟩)]
  split <;> rfl

theorem onKeyword_bind (cases : List (String × Parser α)) (otherwise : Parser α)
    (f : α → Parser β) :
    onKeyword cases otherwise >>= f =
      onKeyword (cases.map fun c => (c.1, c.2 >>= f)) (otherwise >>= f) := by
  rw [onKeyword, onKeyword, bind_assoc]
  refine bind_congr fun us => ?_
  split
  · exact onSymbol_bind cases otherwise f
  · rfl

/-- A run of several cases is one of its cases, after its keyword, or the other way. -/
theorem of_onKeyword_eq_ok {cases : List (String × Parser α)} {otherwise : Parser α}
    {r : α × List Token} (h : onKeyword cases otherwise ts = .ok r) :
    (∃ t us c, c ∈ cases ∧ t.IsKeyword c.1 ∧ ts = t :: us ∧ c.2 us = .ok r) ∨
      ((∀ c ∈ cases, ∀ t ∈ ts.head?, ¬t.IsKeyword c.1) ∧ otherwise ts = .ok r) := by
  rw [onKeyword_apply] at h
  cases ts with
  | nil => exact .inr ⟨by simp, h⟩
  | cons t ts =>
    cases hname : startsWithName (t :: ts) with
    | false =>
      rw [hname] at h
      refine .inr ⟨fun c _ u hu hk => ?_, h⟩
      obtain rfl := Option.some.inj hu
      simp [startsWithName, hk.kind] at hname
    | true =>
      rw [hname, if_pos rfl] at h
      rcases of_onSymbol_eq_ok h with ⟨u, us, c, hc, hu, hts, hcase⟩ | ⟨hno, hother⟩
      · obtain ⟨rfl, rfl⟩ := List.cons.inj hts
        exact .inl ⟨t, ts, c, hc, ⟨beq_iff_eq.1 hname, hu⟩, rfl, hcase⟩
      · exact .inr ⟨fun c hc => not_isKeyword_of_startsWith (hno c hc), hother⟩

/-- The case of the keyword that comes next is taken, if no other case has this keyword. -/
theorem onKeyword_eq_of_mem {cases : List (String × Parser α)} {otherwise p : Parser α} {t : Token}
    (hcases : (cases.map Prod.fst).Nodup) (hmem : (s, p) ∈ cases) (ht : t.IsKeyword s) :
    onKeyword cases otherwise (t :: ts) = p ts := by
  have hname : startsWithName (t :: ts) := beq_iff_eq.2 ht.kind
  rw [onKeyword_apply, if_pos hname, onSymbol_eq_of_mem hcases hmem ht.is]

theorem onKeyword_eq_otherwise {cases : List (String × Parser α)} {otherwise : Parser α}
    (h : ∀ c ∈ cases, ∀ t ∈ ts.head?, ¬t.IsKeyword c.1) :
    onKeyword cases otherwise ts = otherwise ts := by
  rw [onKeyword_apply]
  split
  next hname =>
    refine onSymbol_eq_otherwise fun c hc => ?_
    cases ts with
    | nil => rfl
    | cons t ts =>
      exact Bool.eq_false_iff.2 fun ht => h c hc t rfl ⟨beq_iff_eq.1 hname, ht⟩
  next => rfl

theorem onKeyword_cons_of_not {c : String × Parser α} {cases : List (String × Parser α)}
    {otherwise : Parser α} (h : ∀ t ∈ ts.head?, ¬t.IsKeyword c.1) :
    onKeyword (c :: cases) otherwise ts = onKeyword cases otherwise ts := by
  rw [onKeyword_apply, onKeyword_apply]
  cases ts with
  | nil => rfl
  | cons t ts =>
    split
    next hname =>
      have hc : t.is c.1 = false :=
        Bool.eq_false_iff.2 fun hc => h t rfl ⟨beq_iff_eq.1 hname, hc⟩
      rw [onSymbol, onSymbol, List.find?_cons, hc]
    next => rfl

@[simp] theorem accept_eq_ok {b : Bool} :
    accept s ts = .ok (b, rest) ↔
      (b = true ∧ ∃ t, t.is s ∧ ts = t :: rest) ∨
        (b = false ∧ startsWith s ts = false ∧ rest = ts) := by
  rw [accept, onSymbol_single_eq_ok]
  simp only [pure_eq_ok]
  grind

@[simp] theorem expect_eq_ok {u : Unit} :
    expect s ts = .ok (u, rest) ↔ ∃ t, t.is s ∧ ts = t :: rest := by
  rw [expect, onSymbol_single_eq_ok]
  simp only [pure_eq_ok, fail_ne_ok]
  grind

/-! ## Words -/

@[simp] theorem expectKind_eq_ok {k : Kind} {text : String} :
    expectKind k ts = .ok (text, rest) ↔ ∃ t, t.kind = k ∧ t.text = text ∧ ts = t :: rest := by
  cases ts with
  | nil => simp [expectKind]
  | cons t ts => by_cases h : t.kind = k <;> grind [expectKind, fail_ne_ok]

@[simp] theorem var?_eq_ok {v : Option String} :
    var? ts = .ok (v, rest) ↔
      (∃ t, t.kind = .var ∧ v = some t.text ∧ ts = t :: rest) ∨
        (v = none ∧ rest = ts ∧ ∀ t ∈ ts.head?, t.kind ≠ .var) := by
  cases ts with
  | nil => grind [var?]
  | cons t ts => by_cases h : t.kind = .var <;> grind [var?]

@[simp] theorem literal?_eq_ok {limit : Nat} {l : Option Literal} :
    literal? limit ts = .ok (l, rest) ↔
      (∃ t x, t.literal? limit = some (.ok x) ∧ l = some x ∧ ts = t :: rest) ∨
        (l = none ∧ rest = ts ∧ ∀ t ∈ ts.head?, t.literal? limit = none) := by
  cases ts with
  | nil => grind [literal?]
  | cons t ts =>
    rw [literal?]
    split <;> grind

/-! ## Cells -/

/-- The elements and the tail of a list of which the bracket is open, by recursion: a tail that is
itself a list with elements closes its own bracket. -/
def cells (item : Parser α) : Nat → Parser (List α × Option α)
  | 0 => do
    let xs ← items item
    expect "]"
    return (xs, none)
  | n + 1 => do
    let xs ← items item
    if ← accept "|" then
      if opensCells (← get) then
        expect "["
        let (ys, tail) ← cells item n
        expect "]"
        return (xs ++ ys, tail)
      else
        let tail ← item
        expect "]"
        return (xs, some tail)
    else
      expect "]"
      return (xs, none)

/-- The loop counts the brackets, and those that it has opened are closed after the others. -/
theorem cellLoop_bind_expectAll (item : Parser α) (n : Nat) (collected : List α) (opened : Nat) :
    (do
      let (xs, tail, brackets) ← cellLoop item n collected (opened + 1)
      expectAll "]" brackets
      return (xs.reverse, tail)) =
    (do
      let (xs, tail) ← cells item n
      expectAll "]" opened
      return (collected.reverse ++ xs, tail)) := by
  induction n generalizing collected opened with
  | zero => simp [cellLoop, cells, expectAll]
  | succ n ih =>
    simp only [cellLoop, cells, bind_assoc]
    refine bind_congr fun xs => bind_congr fun b => ?_
    cases b with
    | false => simp [expectAll]
    | true =>
      simp only [if_true, bind_assoc]
      refine bind_congr fun ts => ?_
      split
      · simp only [bind_assoc]
        refine bind_congr fun _ => (ih _ _).trans ?_
        simp [expectAll]
      · simp [expectAll]

/-- The recursion is the loop, and the closing of all the brackets after it. -/
theorem cells_eq (item : Parser α) (n : Nat) :
    cells item n = do
      let (xs, tail, brackets) ← cellLoop item n [] 1
      expectAll "]" brackets
      return (xs.reverse, tail) :=
  ((cellLoop_bind_expectAll item n [] 0).trans (bind_pure _)).symm

theorem consChain_eq (item : Parser α) : consChain item = remaining >>= cells item :=
  bind_congr fun n => (cells_eq item n).symm

end Parser

namespace Level

open CallGraph.Parser

variable {α β γ : Type} {ts rest : List Token}

/-- A segment is its value in marks of its own and its modifiers in parentheses. -/
theorem segment_eq_ok {value : Parser α} {modifier : Parser β} {x : α} {ms : List β} :
    segment value modifier ts = .ok ((x, ms), rest) ↔
      ∃ o c p us mid, o.is "#<" ∧ c.is ">" ∧ p.is "(" ∧ ts = o :: us ∧
        value us = .ok (x, c :: p :: mid) ∧ sequence modifier ")" mid = .ok (ms, rest) := by
  simp only [segment, bind_eq_ok, expect_eq_ok, pure_eq_ok, Prod.mk.injEq]
  grind

theorem fullSegment_eq_ok {value : Parser α} {modifier : Parser β}
    {make : α → β → β → β → β → γ} {y : γ} :
    fullSegment value modifier make ts = .ok (y, rest) ↔
      ∃ x size unit type flags, segment value modifier ts = .ok ((x, [size, unit, type, flags]), rest)
        ∧ y = make x size unit type flags := by
  simp only [fullSegment, bind_eq_ok]
  constructor
  · rintro ⟨⟨x, ms⟩, mid, hseg, h⟩
    rcases ms with _ | ⟨size, _ | ⟨unit, _ | ⟨type, _ | ⟨flags, _ | ⟨extra, ms⟩⟩⟩⟩⟩
    case cons.cons.cons.cons.nil =>
      obtain ⟨rfl, rfl⟩ := pure_eq_ok.1 h
      exact ⟨x, size, unit, type, flags, hseg, rfl⟩
    all_goals exact absurd h fail_ne_ok
  · rintro ⟨x, size, unit, type, flags, hseg, rfl⟩
    exact ⟨_, _, hseg, pure_eq_ok.2 ⟨rfl, rfl⟩⟩

theorem bracketed_eq (item : Parser α) (nil : β) (list : List α → Option α → β) :
    bracketed item nil list = onSymbol [("]", pure nil)] do
      let (elements, tail) ← cells item (← remaining)
      return list elements tail := by
  rw [bracketed, consChain_eq, bind_assoc]

/-! ## Bindings and first steps -/

/-- A binding, after its keyword, and its body, which has a parser of its own. -/
def bindingThen (l : Level) (body : Parser (Ann Expr)) : Parser Expr := do
  let vars ← l.varList
  expect "="
  let value ← l.expr
  expect "in"
  return .letIn vars value (← body)

/-- A first step, after its keyword, and what comes next, which has a parser of its own. -/
def stepThen (l : Level) (next : Parser (Ann Expr)) : Parser Expr := do
  let first ← l.expr
  return .seq first (← next)

/-- Bindings and first steps, and the expression after them, by recursion: each one is put before
what is read after it. -/
def chain (l : Level) : Nat → Parser (Ann Expr)
  | 0 => l.expr
  | n + 1 => onKeyword [
      ("let", Ann.plain <$> l.bindingThen (chain l n)),
      ("do", Ann.plain <$> l.stepThen (chain l n))] l.expr

/-- The loop collects what the recursion has put in its place already. -/
theorem heads_bind_expr (l : Level) (n : Nat) (collected : List ChainHead) :
    (do
      let heads ← l.heads n collected
      let body ← l.expr
      return heads.foldl ChainHead.wrap body) =
    (do
      let body ← l.chain n
      return collected.foldl ChainHead.wrap body) := by
  induction n generalizing collected with
  | zero => simp [heads, chain]
  | succ n ih =>
    rw [heads, chain, onKeyword_bind, onKeyword_bind]
    simp only [List.map_cons, List.map_nil, bind_assoc, ih, pure_bind]
    simp [binding, bindingThen, stepThen, ChainHead.wrap]

/-- The recursion is the loop, and the folding of what it has collected around the body. -/
theorem chain_eq (l : Level) (n : Nat) :
    l.chain n = do
      let heads ← l.heads n []
      let body ← l.expr
      return heads.foldl ChainHead.wrap body :=
  ((l.heads_bind_expr n []).trans (bind_pure _)).symm

theorem bindingChain_eq (l : Level) : l.bindingChain = remaining >>= l.chain :=
  bind_congr fun n => (l.chain_eq n).symm

theorem chain_of_let {l : Level} {k : Token} (n : Nat) (hk : k.IsKeyword "let") :
    l.chain (n + 1) (k :: ts) = (Ann.plain <$> l.bindingThen (l.chain n)) ts :=
  onKeyword_eq_of_mem (by simp) (by simp) hk

theorem chain_of_do {l : Level} {k : Token} (n : Nat) (hk : k.IsKeyword "do") :
    l.chain (n + 1) (k :: ts) = (Ann.plain <$> l.stepThen (l.chain n)) ts :=
  onKeyword_eq_of_mem (by simp) (by simp) hk

/-- What follows each keyword of an expression, if at most `n` bindings and first steps come after
the first one. -/
def headCases (l : Level) (n : Nat) : List (String × Parser Expr) :=
  ("let", l.bindingThen (l.chain n)) :: ("do", l.stepThen (l.chain n)) :: l.keywordCases

theorem opensChain_iff :
    opensChain ts ↔ ∃ k us, (k.IsKeyword "let" ∨ k.IsKeyword "do") ∧ ts = k :: us := by
  cases ts with
  | nil => simp [opensChain, startsWithName]
  | cons t ts =>
    simp only [opensChain, startsWithName, startsWith, Bool.and_eq_true, beq_iff_eq,
      Bool.or_eq_true]
    grind [Token.IsKeyword]

/-- The first keyword of a chain is one of those that an expression begins with. -/
theorem compoundExpr_apply (l : Level) (ts : List Token) :
    l.compoundExpr ts =
      onKeyword (l.headCases (ts.length - 1)) (onSymbol l.exprCases (fail .expression)) ts := by
  rw [compoundExpr, bind_of_ok (get_eq_ok.2 ⟨rfl, rfl⟩), bindingChain_eq]
  split
  next hopen =>
    obtain ⟨k, us, hk, rfl⟩ := opensChain_iff.1 hopen
    -- A link of the chain without its parenthesis, of which there is none.
    have hlink {p : Parser Expr} (h : l.chain (us.length + 1) (k :: us) = (Ann.plain <$> p) us) :
        (do return (← remaining >>= l.chain).node : Parser Expr) (k :: us) = p us := by
      have hnode : (Ann.plain <$> p >>= fun a => pure a.node) = p := by
        rw [bind_map_left]
        exact bind_pure p
      rw [bind_assoc, bind_of_ok (remaining_eq_ok.2 ⟨rfl, rfl⟩), ← congrFun hnode us]
      exact congrArg (Except.bind · fun r => .ok (r.1.node, r.2)) h
    rcases hk with hk | hk
    · rw [hlink (chain_of_let _ hk)]
      exact (onKeyword_eq_of_mem (by simp [keywordCases]) List.mem_cons_self hk).symm
    · rw [hlink (chain_of_do _ hk)]
      exact (onKeyword_eq_of_mem (by simp [keywordCases])
        (List.mem_cons_of_mem _ List.mem_cons_self) hk).symm
  next hopen =>
    have hnone (t : Token) (ht : t ∈ ts.head?) : ¬t.IsKeyword "let" ∧ ¬t.IsKeyword "do" := by
      obtain ⟨us, rfl⟩ := List.head?_eq_some_iff.1 ht
      exact not_or.1 fun hk => hopen (opensChain_iff.2 ⟨t, us, hk, rfl⟩)
    rw [headCases, onKeyword_cons_of_not fun t ht => (hnone t ht).1,
      onKeyword_cons_of_not fun t ht => (hnone t ht).2]

/-- What a module begins with. It has no functions yet. -/
def header (l : Level) : Parser Module := do
  expect "module"
  let name ← expectKind .atom
  expect "["
  let exports ← sequence (do return (← l.funName).node) "]"
  expect "attributes"
  expect "["
  let attributes ← sequence l.attributePair "]"
  return ⟨name, exports, attributes, []⟩

theorem bareModule_eq (l : Level) :
    l.bareModule = l.header >>= fun m =>
      (fun definitions => { m with definitions }) <$> l.definitions "end" := by
  simp only [bareModule, header, bind_assoc, pure_bind, map_eq_pure_bind]

end Level

end CallGraph
