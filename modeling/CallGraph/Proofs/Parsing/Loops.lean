import CallGraph.Proofs.Parsing.Nesting

/-!
The loops of the grammar, and the recursion that they stand for. Bindings and first steps can be
read by recursion, and so can the tails of lists. Apart from how much nesting is followed this reads
the same: the trees are equal, those with lists once the tails are merged into the lists that hold
them.
-/

namespace CallGraph

open CallGraph.Parser

/-- Cases that read what is read without them change nothing. -/
theorem Parser.onSymbol_eq_self {α : Type} {cases : List (String × Parser α)} {p : Parser α}
    (h : ∀ c ∈ cases, ∀ t ts, t.is c.1 → p (t :: ts) = c.2 ts) : onSymbol cases p = p := by
  funext ts
  cases ts with
  | nil => rfl
  | cons t ts =>
    rw [onSymbol]
    split
    next s q hfind =>
      exact (h _ (List.mem_of_find?_eq_some hfind) t ts (by simpa using List.find?_some hfind)).symm
    next => rfl

theorem Parser.onKeyword_eq_self {α : Type} {cases : List (String × Parser α)} {p : Parser α}
    (h : ∀ c ∈ cases, ∀ t ts, t.IsKeyword c.1 → p (t :: ts) = c.2 ts) : onKeyword cases p = p := by
  funext ts
  rw [onKeyword_apply]
  cases ts with
  | nil => rfl
  | cons t ts =>
    split
    next hname =>
      rw [onSymbol]
      split
      next s q hfind =>
        have ht : t.is s := by simpa using List.find?_some hfind
        exact (h _ (List.mem_of_find?_eq_some hfind) t ts ⟨beq_iff_eq.1 hname, ht⟩).symm
      next => rfl
    next => rfl

/-! ## Levels without a limit -/

namespace Level

open Transform (ann_injective unchanged_const unchanged_pattern unchanged_expr unchanged_unit)

variable {n d : Nat} {g : Transform} {l l' : Level}

theorem Agrees.symm (h : l.Agrees False n g l') : l'.Agrees False n g l :=
  ⟨h.digits.symm, h.const.symm, h.atom.symm, h.var.symm, h.funName.symm, h.pattern.symm,
    h.expr.symm, h.unit.symm⟩

theorem Agrees.trans {o : Level} (h : l.Agrees False n g l') (h' : l'.Agrees False n g o) :
    l.Agrees False n g o :=
  ⟨h.digits.trans h'.digits, h.const.trans h'.const, h.atom.trans h'.atom, h.var.trans h'.var,
    h.funName.trans h'.funName, h.pattern.trans h'.pattern, h.expr.trans h'.expr,
    h.unit.trans h'.unit⟩

/-- What is the same as it is written is the same grouped in another way. -/
theorem Agrees.regroup {deep : Prop} (h : l.Agrees deep n .unchanged l') (g : Transform) :
    l.Agrees deep n g l' where
  digits := h.digits
  const := h.const.imp fun _ _ hxy => congrArg _ (ann_injective unchanged_const hxy)
  atom := h.atom.imp fun _ _ hxy => congrArg _ (ann_injective (fun _ => rfl) hxy)
  var := h.var.imp fun _ _ hxy => congrArg _ (ann_injective (fun _ => rfl) hxy)
  funName := h.funName.imp fun _ _ hxy => congrArg _ (ann_injective (fun _ => rfl) hxy)
  pattern := h.pattern.imp fun _ _ hxy => congrArg _ (ann_injective unchanged_pattern hxy)
  expr := h.expr.imp fun _ _ hxy => congrArg _ (ann_injective unchanged_expr hxy)
  unit := h.unit.imp fun _ _ hxy => congrArg _ (ann_injective unchanged_unit hxy)

/-- Levels are equal if they agree on any number of tokens. -/
theorem eq_of_agrees (h : ∀ n, l.Agrees False n .unchanged l') : l = l' := by
  have heq {α : Type} {f : α → α} (hf : ∀ x, f x = x) {p q : Parser (Ann α)}
      (hpq : ∀ n, Parser.Agrees False n (Transform.unchanged.ann f) p q) : p = q :=
    funext fun ts => (hpq (ts.length + 1)).eq_at (ann_injective hf) (Nat.lt_succ_self _)
  obtain ⟨digits, const, atom, var, funName, pattern, expr, unit⟩ := l
  obtain ⟨digits', const', atom', var', funName', pattern', expr', unit'⟩ := l'
  obtain rfl : digits = digits' := (h 0).digits
  obtain rfl : const = const' := heq unchanged_const fun n => (h n).const
  obtain rfl : atom = atom' := heq (fun _ => rfl) fun n => (h n).atom
  obtain rfl : var = var' := heq (fun _ => rfl) fun n => (h n).var
  obtain rfl : funName = funName' := heq (fun _ => rfl) fun n => (h n).funName
  obtain rfl : pattern = pattern' := heq unchanged_pattern fun n => (h n).pattern
  obtain rfl : expr = expr' := heq unchanged_expr fun n => (h n).expr
  obtain rfl : unit = unit' := heq unchanged_unit fun n => (h n).unit
  rfl

section

variable {step : Level → Level} (hstep : Raises step) (digits : Nat)

include hstep

theorem limitless_agrees (h : n ≤ d) :
    (limitless step digits).Agrees False n .unchanged (grow step digits d) := by
  have hgrow (ts : List Token) (hts : ts.length < n) :=
    agrees_grow hstep digits (ts.length + 1) (ts.length + 1) d (Nat.le_refl _)
      (Nat.le_trans hts h)
  exact {
    digits := (digits_grow hstep digits d).symm
    const := fun ts hts => (hgrow ts hts).const ts (Nat.lt_succ_self _)
    atom := fun ts hts => (hgrow ts hts).atom ts (Nat.lt_succ_self _)
    var := fun ts hts => (hgrow ts hts).var ts (Nat.lt_succ_self _)
    funName := fun ts hts => (hgrow ts hts).funName ts (Nat.lt_succ_self _)
    pattern := fun ts hts => (hgrow ts hts).pattern ts (Nat.lt_succ_self _)
    expr := fun ts hts => (hgrow ts hts).expr ts (Nat.lt_succ_self _)
    unit := fun ts hts => (hgrow ts hts).unit ts (Nat.lt_succ_self _) }

/-- The level without a limit is the level above itself. -/
theorem step_limitless : step (limitless step digits) = limitless step digits := by
  refine eq_of_agrees fun n => ?_
  have hbelow := limitless_agrees hstep digits (Nat.le_refl n)
  have habove := limitless_agrees hstep digits (Nat.le_refl (n + 1))
  exact ((hstep.agrees hbelow).trans habove.symm).mono (Nat.le_succ n)

/-- No other level is the level above itself. -/
theorem eq_limitless {l : Level} (h : step l = l) : l = limitless step l.digits := by
  refine eq_of_agrees fun n => ?_
  induction n with
  | zero => exact .zero rfl
  | succ n ih =>
    have hnext := hstep.agrees ih
    rwa [h, step_limitless hstep l.digits] at hnext

end

/-! ## Bindings -/

/-- The level above, if the body of a binding and what comes after a first step are read as any
expression is. -/
def nextBinding (l : Level) : Level :=
  { l.next with
    expr := l.annotated l.expr
      (onKeyword [("let", l.bindingThen l.expr), ("do", l.stepThen l.expr)] l.bareExpr) }

theorem raises_nextBinding : Raises nextBinding := by
  refine ⟨fun _ => rfl, fun deep n l l' hl => ?_⟩
  have hcases : Agrees.Cases deep n Transform.unchanged.expr
      [("let", l.bindingThen l.expr), ("do", l.stepThen l.expr)]
      [("let", l'.bindingThen l'.expr), ("do", l'.stepThen l'.expr)] :=
    .cons ⟨rfl, hl.bindingThen hl.expr⟩ (.cons ⟨rfl, hl.stepThen hl.expr⟩ .nil)
  exact { hl.next with expr := hl.annotated hl.expr (.onKeyword hcases hl.bareExpr) }

/-- What begins with a symbol other than a parenthesis has no parentheses. -/
theorem annotated_of_is {α : Type} {inner : Parser (Ann α)} {bare p : Parser α} {s : String}
    {t : Token} {ts : List Token} (ht : t.is s) (hs : s ≠ "(") (h : bare (t :: ts) = p ts) :
    l.annotated inner bare (t :: ts) = (Ann.plain <$> p) ts := by
  rw [annotated, onSymbol_eq_otherwise (by simpa [startsWith] using Token.is_eq_false ht hs)]
  change Except.bind (bare (t :: ts)) _ = Except.bind (p ts) _
  rw [h]

/-- Where bindings are read by recursion, a chain is any expression. -/
theorem chain_of_nextBinding (h : l.nextBinding = l) (k : Nat) : l.chain k = l.expr := by
  -- As the level is the one above itself, its expressions have the cases of that level.
  have hexpr {t : Token} {ts : List Token} {s : String} {p : Parser Expr} (hs : s ≠ "(")
      (hmem : (s, p) ∈ [("let", l.bindingThen l.expr), ("do", l.stepThen l.expr)])
      (ht : t.IsKeyword s) : l.expr (t :: ts) = (Ann.plain <$> p) ts := by
    rw [← h]
    exact annotated_of_is ht.is hs (onKeyword_eq_of_mem (by simp) hmem ht)
  induction k with
  | zero => rfl
  | succ k ih =>
    rw [chain, ih]
    refine onKeyword_eq_self ?_
    simp only [List.forall_mem_cons]
    exact ⟨fun t ts => hexpr (by decide) List.mem_cons_self,
      fun t ts => hexpr (by decide) (List.mem_cons_of_mem _ List.mem_cons_self),
      List.forall_mem_nil _⟩

/-- A level that is above itself if bindings are read by recursion is also above itself if they are
read in a loop. -/
theorem next_of_nextBinding (h : l.nextBinding = l) : l.next = l := by
  have hbare : onKeyword [("let", l.bindingThen l.expr), ("do", l.stepThen l.expr)] l.bareExpr =
      l.bareExpr := by
    refine onKeyword_eq_self fun c hc t ts ht => bareExpr_of_keyword ht ?_
    rw [headCases, chain_of_nextBinding h]
    exact List.mem_append_left l.keywordCases hc
  rw [nextBinding, hbare] at h
  exact h

theorem limitless_nextBinding (digits : Nat) :
    limitless nextBinding digits = limitless next digits :=
  eq_limitless raises_next (next_of_nextBinding (step_limitless raises_nextBinding digits))

end Level

/-- Apart from how much nesting is followed, bindings and first steps are read as by recursion: it
is the same tree or the same failure, at the same token. -/
theorem bindings_read_as_by_recursion (ts : List Token) :
    (∃ a, Settles (.error .tooDeep) (ts.length + 1) (fun d => exprOfTokens d ts) a ∧
      Settles (.error .tooDeep) (ts.length + 1)
        (fun d => (Level.grow Level.nextBinding numeralLimit d).expr.whole ts) a) ∧
    ∃ a, Settles (.error .tooDeep) (ts.length + 1) (fun d => moduleOfTokens d ts) a ∧
      Settles (.error .tooDeep) (ts.length + 1)
        (fun d => (Level.grow Level.nextBinding numeralLimit d).unit.whole ts) a := by
  have hloop := Level.ofDepth_settlesTo numeralLimit
  have hrecursion := Level.grow_settlesTo Level.raises_nextBinding numeralLimit
  rw [Level.limitless_nextBinding] at hrecursion
  exact ⟨⟨_, settles_whole (hloop.expr ts), settles_whole (hrecursion.expr ts)⟩,
    ⟨_, settles_whole (hloop.unit ts), settles_whole (hrecursion.unit ts)⟩⟩

/-! ## Lists -/

namespace Parser

open Transform (joined)

variable {α β α' β' : Type} {n : Nat} {ts : List Token}

/-- The elements and the tail of a list of which the bracket is open. The tail is read as any item
is. -/
def plainCells (item : Parser α) : Parser (List α × Option α) := do
  let xs ← items item
  if ← accept "|" then
    let tail ← item
    expect "]"
    return (xs, some tail)
  else
    expect "]"
    return (xs, none)

theorem plainCells_ne_nil {item : Parser α} {c : List α × Option α} {rest : List Token}
    (h : plainCells item ts = .ok (c, rest)) : c.1 ≠ [] := by
  simp only [plainCells, items, bind_eq_ok, pure_eq_ok] at h
  obtain ⟨xs, _, ⟨x, _, -, _, _, -, _, _, -, rfl, rfl⟩, b, _, -, h⟩ := h
  cases b with
  | true =>
    simp only [if_true, bind_eq_ok, pure_eq_ok] at h
    obtain ⟨_, _, -, _, _, -, rfl, -⟩ := h
    exact List.cons_ne_nil _ _
  | false =>
    obtain ⟨_, _, -, hc⟩ := bind_eq_ok.1 h
    obtain ⟨rfl, -⟩ := pure_eq_ok.1 hc
    exact List.cons_ne_nil _ _

/-- What follows an open bracket, if the tail is read as any item is. -/
def plainBracketed (item : Parser α) (nil : β) (list : List α → Option α → β) : Parser β :=
  onSymbol [("]", pure nil)] do
    let (elements, tail) ← plainCells item
    return list elements tail

namespace Agrees

theorem plainCells {deep : Prop} {f : α → β} {p q : Parser α} (hp : Agrees deep n f p q) :
    Agrees deep n (Prod.map (List.map f) (Option.map f)) (Parser.plainCells p)
      (Parser.plainCells q) := by
  refine hp.items.bind fun xs ys hxs => (accept "|").andThen fun _ => ite
    (hp.bind fun x y hx => (expect "]").andThen fun _ => pure ?_)
    ((expect "]").andThen fun _ => pure ?_)
  · rw [Prod.map_apply, Prod.map_apply, hxs, Option.map_some, Option.map_some, hx]
  · rw [Prod.map_apply, Prod.map_apply, hxs]

theorem plainBracketed {deep : Prop} {f : α → α'} {p q : Parser α} {nil : β}
    {list : List α → Option α → β} {h : β → β'} (hp : Agrees deep n f p q)
    (hlist : ∀ xs ys tail tail', xs.map f = ys.map f → tail.map f = tail'.map f →
      h (list xs tail) = h (list ys tail')) :
    Agrees deep n h (Parser.plainBracketed p nil list) (Parser.plainBracketed q nil list) :=
  onSymbol_one_flat (pure rfl) (hp.plainCells.bind fun _ _ hc =>
    pure (hlist _ _ _ _ (Prod.ext_iff.1 hc).1 (Prod.ext_iff.1 hc).2))

end Agrees

theorem opensCells_iff :
    opensCells ts ↔ ∃ o us, o.is "[" ∧ startsWith "]" us = false ∧ ts = o :: us := by
  cases ts with
  | nil => simp [opensCells]
  | cons t ts => simp [opensCells]

/-- After one symbol there is another parser, which agrees with what was read after it before. -/
theorem Agrees.replace {deep : Prop} {f : α → β} {p q r : Parser α} {s : String}
    (hp : Agrees deep (n + 1) f p p) (hq : Agrees deep n f r q)
    (h : ∀ t ts, t.is s → p (t :: ts) = r ts) :
    Agrees deep (n + 1) f p (Parser.onSymbol [(s, q)] p) := by
  have hone := hq.onSymbol_one (s := s) hp
  rwa [onSymbol_eq_self (by simpa using h)] at hone

theorem Agrees.length_le {f : α → β} {p q : Parser α} {x : α} {rest : List Token}
    (h : Agrees False n f p q) (hp : p ts = .ok (x, rest)) (hts : ts.length < n) :
    rest.length ≤ ts.length := by
  have hpq := h ts hts
  rw [hp] at hpq
  generalize q ts = r at hpq
  cases hpq with
  | ok _ hrest => exact hrest

/-- A list with elements is read as an item by recursion, and seen as the elements and the tail that
it consists of. -/
structure ReadsCells (view : α → Option (List α × Option α)) (m : α → α)
    (cell : List α × Option α → α) (item : Parser α) : Prop where
  same : ∀ n, Agrees False n id item item
  opens : ∀ ⦃o us⦄, o.is "[" → startsWith "]" us = false →
    item (o :: us) = (cell <$> plainCells item) us
  view_cell : ∀ ⦃c⦄, c.1 ≠ [] → view (m (cell c)) = some (joined view m c)

namespace ReadsCells

variable {view : α → Option (List α × Option α)} {m : α → α} {cell : List α × Option α → α}
  {item : Parser α} (h : ReadsCells view m cell item)

include h

theorem same_items (n : Nat) : Agrees False n id (items item) (items item) := by
  simpa using (h.same n).items

theorem same_plainCells (n : Nat) :
    Agrees False n (joined view m) (plainCells item) (plainCells item) :=
  (h.same n).plainCells.imp fun c c' hc => by
    simp only [Prod.map_id, List.map_id_fun, Option.map_id_fun, id] at hc
    rw [hc]

theorem joined_append (xs : List α) {c c' : List α × Option α}
    (hc : joined view m c = joined view m c') (hne : c'.1 ≠ []) :
    joined view m (xs ++ c.1, c.2) = joined view m (xs, some (cell c')) := by
  have hleft : joined view m (xs ++ c.1, c.2) =
      (xs.map m ++ (joined view m c).1, (joined view m c).2) := by
    rw [joined, List.map_append, Transform.join_append]
    rfl
  have hright : joined view m (xs, some (cell c')) =
      (xs.map m ++ (joined view m c').1, (joined view m c').2) := by
    rw [joined, Transform.join, Option.map_some, Option.bind_some, h.view_cell hne]
  rw [hleft, hright, hc]

/-- The loop opens a tail that is a list at once, where the recursion reads it as an item. -/
theorem cells (k : Nat) (hn : n ≤ k + 1) :
    Agrees False n (joined view m) (Parser.cells item k) (plainCells item) := by
  induction k generalizing n with
  | zero =>
    -- The bound is reached without tokens only, and there both want the closing bracket.
    intro ts hts
    obtain rfl : ts = [] := List.length_eq_zero_iff.1 (by omega)
    have heq : Parser.cells item 0 [] = plainCells item [] := by
      rw [Parser.cells, plainCells]
      refine bind_congr_at fun xs rest hxs => ?_
      obtain rfl : rest = [] :=
        List.length_eq_zero_iff.1 (Nat.le_zero.1 ((h.same_items 1).length_le hxs Nat.one_pos))
      rfl
    rw [heq]
    exact h.same_plainCells n [] hts
  | succ k ih =>
    rw [Parser.cells, plainCells]
    refine (h.same_items n).andThen fun xs => (Agrees.accept "|").andThen fun _ => .ite ?_
      ((Agrees.expect "]").andThen fun _ => .pure rfl)
    intro us hus
    rw [bind_of_ok (get_eq_ok.2 ⟨rfl, rfl⟩)]
    cases hopens : opensCells us with
    | false =>
      exact ((h.same n).andThen fun _ => (Agrees.expect "]").andThen fun _ => .pure rfl) us hus
    | true =>
      obtain ⟨o, vs, ho, hvs, rfl⟩ := opensCells_iff.1 hopens
      have hexpect : expect "[" (o :: vs) = .ok ((), vs) := expect_eq_ok.2 ⟨o, ho, rfl⟩
      have hitem {β : Type} (next : α → Parser β) :
          (item >>= next) (o :: vs) = (plainCells item >>= fun c => next (cell c)) vs := by
        change Except.bind (item (o :: vs)) (fun r => next r.1 r.2) = _
        rw [h.opens ho hvs]
        exact congrFun (bind_map_left cell (plainCells item) next) vs
      have hlength : vs.length + 1 ≤ k + 1 := by
        simp only [List.length_cons] at hus
        omega
      -- Both go on after the bracket, and the elements found there are added here or merged later.
      have htail := (ih hlength).bind_of (fun _ _ _ => plainCells_ne_nil) fun c c' hc hne =>
        (Agrees.expect "]").andThen fun _ => .pure (h.joined_append xs hc hne)
      rw [if_pos rfl, bind_of_ok hexpect, hitem]
      exact (htail vs (Nat.lt_succ_self _)).mono (Nat.le_succ _)

theorem bracketed {nil : β} {list : List α → Option α → β} {f : β → β'}
    (hlist : ∀ c c', joined view m c = joined view m c' → f (list c.1 c.2) = f (list c'.1 c'.2)) :
    Agrees False n f (Level.bracketed item nil list) (plainBracketed item nil list) := by
  rw [Level.bracketed_eq]
  refine .onSymbol_one_flat (.pure rfl) fun ts _ => ?_
  have hcells := h.cells ts.length (Nat.le_refl _)
  rw [bind_of_ok (remaining_eq_ok.2 ⟨rfl, rfl⟩)]
  exact (hcells.bind fun c c' hc => .pure (hlist c c' hc)) ts (Nat.lt_succ_self _)

end ReadsCells

end Parser

namespace Level

variable {l : Level}

/-- The level above, if the tail of a list is read as any item is. -/
def nextList (l : Level) : Level :=
  { l.next with
    const := l.annotated l.const
      (onSymbol [("[", plainBracketed l.constant (.lit .nil) .list)] l.bareConst)
    pattern := l.annotated l.pattern
      (onSymbol [("[", plainBracketed l.plainPattern (.lit .nil) .list)] l.barePattern)
    expr := l.annotated l.expr
      (onSymbol [("[", plainBracketed l.expr (.lit .nil) .list)] l.bareExpr) }

theorem raises_nextList : Raises nextList := by
  refine ⟨fun _ => rfl, fun deep n l l' hl => ?_⟩
  exact { hl.next with
    const := hl.annotated hl.const (.onSymbol_one (hl.constant.plainBracketed
      fun _ _ _ _ hxs htail => by simp [Transform.const, hxs, htail]) hl.bareConst)
    pattern := hl.annotated hl.pattern (.onSymbol_one (hl.plainPattern.plainBracketed
      fun _ _ _ _ hxs htail => by simp [Transform.pattern, hxs, htail]) hl.barePattern)
    expr := hl.annotated hl.expr (.onSymbol_one (hl.expr.plainBracketed
      fun _ _ _ _ hxs htail => by simp [Transform.expr, hxs, htail]) hl.bareExpr) }

/-- An open bracket, and elements after it. -/
theorem annotated_cells {α β : Type} {inner : Parser (Ann β)} {item : Parser α} {nil : β}
    {list : List α → Option α → β} {bare : Parser β} {o : Token} {us : List Token}
    (ho : o.is "[") (hus : startsWith "]" us = false) :
    l.annotated inner (onSymbol [("[", plainBracketed item nil list)] bare) (o :: us) =
      ((fun c => Ann.plain (list c.1 c.2)) <$> plainCells item) us := by
  have hlist : plainBracketed item nil list us =
      ((fun c => list c.1 c.2) <$> plainCells item) us := by
    rw [plainBracketed, onSymbol_eq_otherwise (by simpa using hus), map_eq_pure_bind]
  rw [annotated_of_is ho (by decide) (onSymbol_eq_of_mem (by simp) List.mem_cons_self ho)]
  change Except.bind (plainBracketed item nil list us) _ = _
  rw [hlist]
  exact congrFun (comp_map _ _ (plainCells item)).symm us

theorem node_cells {α β : Type} {p inner : Parser (Ann β)} {item : Parser α} {nil : β}
    {list : List α → Option α → β} {bare : Parser β} {o : Token} {us : List Token}
    (hp : p = l.annotated inner (onSymbol [("[", plainBracketed item nil list)] bare))
    (ho : o.is "[") (hus : startsWith "]" us = false) :
    (do return (← p).node) (o :: us) = ((fun c => list c.1 c.2) <$> plainCells item) us := by
  change Except.bind (p (o :: us)) _ = _
  rw [hp, annotated_cells ho hus]
  exact congrFun (comp_map _ _ (plainCells item)).symm us

section

variable (hl : l.nextList = l) (hsame : ∀ n, l.Agrees False n .unchanged l)

include hl hsame

theorem readsCells_constant : ReadsCells Transform.merged.constCells Transform.merged.const
    (fun c => .list c.1 c.2) l.constant where
  same n := (hsame n).constant.imp fun x y h => by
    rwa [Transform.unchanged_const, Transform.unchanged_const] at h
  opens _ _ := node_cells (congrArg Level.const hl).symm
  view_cell c hc := by
    rw [Transform.const_list]
    exact Transform.constCells_list (Transform.joined_ne_nil _ _ hc) _

theorem readsCells_plainPattern : ReadsCells Transform.merged.patternCells
    Transform.merged.pattern (fun c => .list c.1 c.2) l.plainPattern where
  same n := (hsame n).plainPattern.imp fun x y h => by
    rwa [Transform.unchanged_pattern, Transform.unchanged_pattern] at h
  opens _ _ := node_cells (congrArg Level.pattern hl).symm
  view_cell c hc := by
    rw [Transform.pattern_list]
    exact Transform.patternCells_list (Transform.joined_ne_nil _ _ hc) _

theorem readsCells_expr : ReadsCells Transform.merged.exprCells
    (Transform.merged.ann Transform.merged.expr) (fun c => .plain (.list c.1 c.2)) l.expr where
  same n := (hsame n).expr.imp fun x y h => Transform.ann_injective Transform.unchanged_expr h
  opens o us ho hus := by
    rw [← annotated_cells ho hus]
    exact congrFun (congrArg Level.expr hl).symm (o :: us)
  view_cell c hc := by
    rw [Transform.ann, Ann.plain, Transform.expr_list]
    exact Transform.exprCells_list (Transform.joined_ne_nil _ _ hc) _

/-- What is read in a loop is what is read by recursion, apart from how lists are grouped. -/
theorem next_agrees_self (n : Nat) : l.next.Agrees False (n + 1) .merged l := by
  have hmerged := (hsame n).regroup .merged
  have hnext : l.next.Agrees False (n + 1) .merged l.nextList :=
    { hmerged.next with
      const := hmerged.annotated hmerged.const <| hmerged.bareConst.replace
        ((readsCells_constant hl hsame).bracketed fun c c' hc => by
          rw [Transform.const_list, Transform.const_list, hc])
        fun t ts ht => bareConst_of_mem ht (by simp [constCases])
      pattern := hmerged.annotated hmerged.pattern <| hmerged.barePattern.replace
        ((readsCells_plainPattern hl hsame).bracketed fun c c' hc => by
          rw [Transform.pattern_list, Transform.pattern_list, hc])
        fun t ts ht => barePattern_of_mem ht (by simp [patternCases])
      expr := hmerged.annotated hmerged.expr <| hmerged.bareExpr.replace
        ((readsCells_expr hl hsame).bracketed fun c c' hc => by
          rw [Transform.expr_list, Transform.expr_list, hc])
        fun t ts ht => bareExpr_of_mem ht (by simp [exprCases]) }
  rwa [hl] at hnext

end

theorem limitless_agrees_nextList (digits n : Nat) :
    (limitless next digits).Agrees False n .merged (limitless nextList digits) := by
  have hsame (n : Nat) :=
    have hgrow := limitless_agrees raises_nextList digits (Nat.le_refl n)
    hgrow.trans hgrow.symm
  induction n with
  | zero => exact .zero rfl
  | succ n ih =>
    -- Both levels are above themselves, so that what is below them is what they are.
    have hnext := ih.next
    rw [step_limitless raises_next] at hnext
    exact hnext.trans (next_agrees_self (step_limitless raises_nextList digits) hsame n)

end Level

/-- Parsers that come to the same with greater limits, as far as `f` tells: they take the same
tokens and give the same, or fail in the same way. -/
def SettleAlike {α β : Type} (f : α → β) (p q : Nat → Parser α) : Prop :=
  ∀ ts, ∃ a b, Settles (.error .tooDeep) (ts.length + 1) (fun d => p d ts) a ∧
    Settles (.error .tooDeep) (ts.length + 1) (fun d => q d ts) b ∧
    a.map (Prod.map f id) = b.map (Prod.map f id)

theorem Parser.Agrees.settleAlike {α β : Type} {f : α → β} {p q : Nat → Parser α} {p' q' : Parser α}
    (h : ∀ n, Agrees False n f p' q')
    (hp : ∀ ts, Settles (.error .tooDeep) (ts.length + 1) (fun d => p d ts) (p' ts))
    (hq : ∀ ts, Settles (.error .tooDeep) (ts.length + 1) (fun d => q d ts) (q' ts)) :
    SettleAlike f p q :=
  fun ts => ⟨p' ts, q' ts, hp ts, hq ts, (h (ts.length + 1) ts (Nat.lt_succ_self _)).map_eq⟩

/-- Apart from how much nesting is followed, the tails of lists are read as by recursion: the same
tokens are taken, or it fails in the same way, and the trees are the same once the tails are merged
into the lists that hold them. -/
theorem lists_read_as_by_recursion (digits : Nat) :
    SettleAlike (Transform.merged.ann Transform.merged.const)
      (fun d => (Level.ofDepth digits d).const) (fun d => (Level.grow .nextList digits d).const) ∧
    SettleAlike (Transform.merged.ann Transform.merged.pattern)
      (fun d => (Level.ofDepth digits d).pattern)
      (fun d => (Level.grow .nextList digits d).pattern) ∧
    SettleAlike (Transform.merged.ann Transform.merged.expr)
      (fun d => (Level.ofDepth digits d).expr) (fun d => (Level.grow .nextList digits d).expr) ∧
    SettleAlike (Transform.merged.ann Transform.merged.unit)
      (fun d => (Level.ofDepth digits d).unit) (fun d => (Level.grow .nextList digits d).unit) := by
  have hloop := Level.ofDepth_settlesTo digits
  have hrecursion := Level.grow_settlesTo Level.raises_nextList digits
  have hagrees := Level.limitless_agrees_nextList digits
  exact ⟨Agrees.settleAlike (fun n => (hagrees n).const) hloop.const hrecursion.const,
    Agrees.settleAlike (fun n => (hagrees n).pattern) hloop.pattern hrecursion.pattern,
    Agrees.settleAlike (fun n => (hagrees n).expr) hloop.expr hrecursion.expr,
    Agrees.settleAlike (fun n => (hagrees n).unit) hloop.unit hrecursion.unit⟩

-- The trees differ before the tail is merged.
example : let ts : List Token := [⟨.punct, "[", 0⟩, ⟨.var, "X", 1⟩, ⟨.punct, "|", 2⟩,
      ⟨.punct, "[", 3⟩, ⟨.var, "Y", 4⟩, ⟨.punct, "]", 5⟩, ⟨.punct, "]", 6⟩]
    (Level.ofDepth 9 3).pattern ts = .ok (.plain (.list [.var "X", .var "Y"] none), []) ∧
    (Level.grow .nextList 9 3).pattern ts =
      .ok (.plain (.list [.var "X"] (some (.list [.var "Y"] none))), []) :=
  ⟨rfl, rfl⟩

end CallGraph
