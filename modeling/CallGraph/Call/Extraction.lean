import CallGraph.Call

/-!
The calls of an expression, found with a list of what is still to be looked at, so that the walk
through deep expressions needs no deep recursion. Only the description of a target is made by
recursion, and fails if the target is too deep. Arguments come before the call they belong to.
Guards and patterns are not looked at.
-/

namespace CallGraph

inductive OtherPart where
  | module
  | definition
  | clause
deriving DecidableEq

def OtherPart.label : OtherPart → String
  | .module => "Module"
  | .definition => "FunDef"
  | .clause => "Alt"

inductive ExtractError where
  | noRule (part : OtherPart)
  /-- The target of a call is nested too deeply to be described. -/
  | tooDeep
deriving DecidableEq

def ExtractError.message : ExtractError → String
  | .noRule part => "No cross-reference rule for " ++ part.label
  | .tooDeep => "maximum recursion depth exceeded"

/-- The call that goes to `unit` and `function`. A target that is not made of names is described,
with at most `limit` calls open at once. -/
def Call.classify (limit : Nat) (unit function : Expr) (arity : Int) : Except ExtractError Call :=
  match unit, function with
  | .lit (.atom m), .lit (.atom f) => .ok (.static m f arity)
  | .lit (.atom m), .var f => .ok (.dynFunction m f arity)
  | .var m, .lit (.atom f) => .ok (.dynModule m f arity)
  | .var m, .var f => .ok (.dynAll m f arity)
  | m, f =>
    match (Outline.tuple [m.outline, f.outline, .integer arity]).dump limit with
    | some description => .ok (.unimplemented description)
    | none => .error .tooDeep

namespace Expr

/-! ## The parts of an expression -/

def nodes (es : List (Ann Expr)) : List Expr := es.map Ann.node

def bodies (cs : List (Ann Clause)) : List Expr := cs.map (·.node.body.node)

def functions (ds : List (Ann Definition)) : List Expr := ds.map (·.node.function.node)

def segmentParts (segments : List Segment) : List Expr :=
  segments.flatMap fun s => nodes [s.value, s.size, s.unit, s.type, s.flags]

def pairParts (pairs : List MapPair) : List Expr :=
  pairs.flatMap fun p => nodes [p.key, p.value]

/-- The expressions that are looked at in an expression, from left to right. -/
def walked : Expr → List Expr
  | .var _ | .lit _ | .funRef _ => []
  | .lambda _ body => [body.node]
  | .apply function args => function.node :: nodes args
  | .call unit function args => unit.node :: function.node :: nodes args
  | .primop _ args => nodes args
  | .seq first next => [first.node, next.node]
  | .letIn _ value body => [value.node, body.node]
  | .letRec definitions body => functions definitions ++ [body.node]
  | .caseOf subject clauses => subject.node :: bodies clauses
  | .receive clauses timeout action => bodies clauses ++ [timeout.node, action.node]
  | .tryOf body _ success _ handler => [body.node, success.node, handler.node]
  | .catching body => [body.node]
  | .tuple elements | .values elements => nodes elements
  | .list elements tail => nodes elements ++ nodes tail.toList
  | .binary segments => segmentParts segments
  | .map pairs base => nodes base.toList ++ pairParts pairs

/-- The call that an expression itself makes, if it makes one. -/
def made (limit : Nat) : Expr → Except ExtractError (List Call)
  | .call unit function args => do
    return [← Call.classify limit unit.node function.node args.length]
  | _ => .ok []

/-! The parts of an expression and the call that it makes are together smaller than the
expression. -/

noncomputable def sizes (es : List Expr) : Nat := es.foldr (sizeOf · + ·) 0

@[simp] theorem sizes_nil : sizes [] = 0 := rfl

@[simp] theorem sizes_cons (e : Expr) (es : List Expr) : sizes (e :: es) = sizeOf e + sizes es := rfl

@[simp] theorem sizes_append (as bs : List Expr) : sizes (as ++ bs) = sizes as + sizes bs := by
  induction as with
  | nil => simp
  | cons e as ih => rw [List.cons_append, sizes_cons, sizes_cons, ih, Nat.add_assoc]

theorem size_node_lt (e : Ann Expr) : sizeOf e.node < sizeOf e := by
  cases e
  simp
  omega

theorem sizes_nodes_lt (es : List (Ann Expr)) : sizes (nodes es) < sizeOf es := by
  induction es with
  | nil => simp [nodes]
  | cons e es ih =>
    have := size_node_lt e
    simp only [nodes, List.map_cons, sizes_cons, List.cons.sizeOf_spec] at ih ⊢
    omega

theorem sizes_option_lt (e : Option (Ann Expr)) : sizes (nodes e.toList) < sizeOf e := by
  cases e with
  | none => simp [nodes]
  | some e =>
    have := size_node_lt e
    simp only [nodes, Option.toList_some, List.map_cons, List.map_nil, sizes_cons, sizes_nil,
      Option.some.sizeOf_spec]
    omega

theorem sizes_bodies_lt (cs : List (Ann Clause)) : sizes (bodies cs) < sizeOf cs := by
  induction cs with
  | nil => simp [bodies]
  | cons c cs ih =>
    obtain ⟨⟨patterns, guard, body⟩, annotations⟩ := c
    have := size_node_lt body
    simp only [bodies, List.map_cons, sizes_cons, List.cons.sizeOf_spec, Ann.mk.sizeOf_spec,
      Clause.mk.sizeOf_spec] at ih ⊢
    omega

theorem sizes_functions_lt (ds : List (Ann Definition)) : sizes (functions ds) < sizeOf ds := by
  induction ds with
  | nil => simp [functions]
  | cons d ds ih =>
    obtain ⟨⟨name, function⟩, annotations⟩ := d
    have := size_node_lt function
    simp only [functions, List.map_cons, sizes_cons, List.cons.sizeOf_spec, Ann.mk.sizeOf_spec,
      Definition.mk.sizeOf_spec] at ih ⊢
    omega

theorem sizes_segmentParts_lt (segments : List Segment) :
    sizes (segmentParts segments) < sizeOf segments := by
  induction segments with
  | nil => simp [segmentParts]
  | cons s segments ih =>
    obtain ⟨value, size, unit, type, flags⟩ := s
    have := size_node_lt value
    have := size_node_lt size
    have := size_node_lt unit
    have := size_node_lt type
    have := size_node_lt flags
    simp only [segmentParts, List.flatMap_cons, nodes, List.map_cons, List.map_nil, sizes_append,
      sizes_cons, sizes_nil, List.cons.sizeOf_spec, Segment.mk.sizeOf_spec] at ih ⊢
    omega

theorem sizes_pairParts_lt (pairs : List MapPair) : sizes (pairParts pairs) < sizeOf pairs := by
  induction pairs with
  | nil => simp [pairParts]
  | cons p pairs ih =>
    obtain ⟨key, value, op⟩ := p
    have := size_node_lt key
    have := size_node_lt value
    simp only [pairParts, List.flatMap_cons, nodes, List.map_cons, List.map_nil, sizes_append,
      sizes_cons, sizes_nil, List.cons.sizeOf_spec, MapPair.mk.sizeOf_spec] at ih ⊢
    omega

theorem sizes_walked_lt (e : Expr) : sizes e.walked < sizeOf e := by
  cases e <;>
    simp only [walked, sizes_nil, sizes_cons, sizes_append, Expr.var.sizeOf_spec,
      Expr.lit.sizeOf_spec, Expr.funRef.sizeOf_spec, Expr.lambda.sizeOf_spec,
      Expr.apply.sizeOf_spec, Expr.call.sizeOf_spec, Expr.primop.sizeOf_spec, Expr.seq.sizeOf_spec,
      Expr.letIn.sizeOf_spec, Expr.letRec.sizeOf_spec, Expr.caseOf.sizeOf_spec,
      Expr.receive.sizeOf_spec, Expr.tryOf.sizeOf_spec, Expr.catching.sizeOf_spec,
      Expr.tuple.sizeOf_spec, Expr.list.sizeOf_spec, Expr.binary.sizeOf_spec, Expr.map.sizeOf_spec,
      Expr.values.sizeOf_spec]
  all_goals grind [size_node_lt, sizes_nodes_lt, sizes_option_lt, sizes_bodies_lt,
    sizes_functions_lt, sizes_segmentParts_lt, sizes_pairParts_lt]

theorem sizes_walked_add_length_lt {limit : Nat} {e : Expr} {cs : List Call}
    (h : e.made limit = .ok cs) : sizes e.walked + cs.length < sizeOf e := by
  cases e with
  | call unit function args =>
    have hunit := size_node_lt unit
    have hfunction := size_node_lt function
    have hargs := sizes_nodes_lt args
    rw [made] at h
    cases hc : Call.classify limit unit.node function.node args.length with
    | error =>
      rw [hc] at h
      cases h
    | ok c =>
      rw [hc] at h
      cases h
      simp only [walked, sizes_cons, List.length_singleton, Expr.call.sizeOf_spec]
      omega
  | _ =>
    cases h
    exact sizes_walked_lt _

end Expr

/-! ## Walks -/

/-- What is looked at. A call is already found. -/
inductive Item where
  | expr (e : Expr)
  | call (c : Call)
  | other (part : OtherPart)

namespace Item

/-- The size of an item, by which the work on a list of them ends. -/
noncomputable def weight : Item → Nat
  | .expr e => sizeOf e
  | .call _ | .other _ => 1

noncomputable def weights (items : List Item) : Nat := (items.map weight).foldr (· + ·) 0

@[simp] theorem weights_cons (i : Item) (items : List Item) :
    weights (i :: items) = i.weight + weights items := rfl

@[simp] theorem weights_append (a b : List Item) : weights (a ++ b) = weights a + weights b := by
  induction a with
  | nil => simp [weights]
  | cons i a ih => rw [List.cons_append, weights_cons, weights_cons, ih, Nat.add_assoc]

theorem weights_exprs (es : List Expr) : weights (es.map .expr) = Expr.sizes es := by
  induction es with
  | nil => rfl
  | cons e es ih => rw [List.map_cons, weights_cons, ih, Expr.sizes_cons, weight]

theorem weights_calls (cs : List Call) : weights (cs.map .call) = cs.length := by
  induction cs with
  | nil => rfl
  | cons c cs ih => rw [List.map_cons, weights_cons, ih, weight, List.length_cons, Nat.add_comm]

end Item

/-- Where a walk stands: what is still to be looked at, the next item first, and the calls found so
far, the latest first. -/
structure Walk where
  pending : List Item
  found : List Call

namespace Walk

/-- Takes the next item. A call is found, an expression is replaced by its parts and the call that
it makes. -/
def step (limit : Nat) : Walk → Except ExtractError (Option Walk)
  | ⟨[], _⟩ => .ok none
  | ⟨.call c :: rest, found⟩ => .ok (some ⟨rest, c :: found⟩)
  | ⟨.expr e :: rest, found⟩ => do
    let made ← e.made limit
    return some ⟨e.walked.map .expr ++ made.map .call ++ rest, found⟩
  | ⟨.other part :: _, _⟩ => .error (.noRule part)

theorem weights_step_lt {limit : Nat} {w w' : Walk} (h : w.step limit = .ok (some w')) :
    Item.weights w'.pending < Item.weights w.pending := by
  rcases w with ⟨_ | ⟨e | c | p, rest⟩, found⟩
  · cases h
  · rw [step] at h
    cases hmade : e.made limit with
    | error =>
      rw [hmade] at h
      cases h
    | ok calls =>
      rw [hmade] at h
      cases h
      have hwalked := Expr.sizes_walked_add_length_lt hmade
      rw [Item.weights_append, Item.weights_append, Item.weights_exprs, Item.weights_calls,
        Item.weights_cons, Item.weight]
      omega
  · cases h
    simp [Item.weight]
  · cases h

/-- The calls found when nothing is left to look at. -/
def run (limit : Nat) (w : Walk) : Except ExtractError (List Call) :=
  match _h : w.step limit with
  | .error e => .error e
  | .ok none => .ok w.found.reverse
  | .ok (some w') => w'.run limit
termination_by Item.weights w.pending
decreasing_by exact weights_step_lt ‹_›

end Walk

def extractCalls (limit : Nat) (roots : List Item) : Except ExtractError (List Call) :=
  Walk.run limit ⟨roots, []⟩

def Module.report (limit : Nat) (m : Module) : Except ExtractError Report := do
  return ⟨m.name, ← extractCalls limit ((Expr.functions m.definitions).map .expr)⟩

end CallGraph
