import CallGraph.Core.Expr

/-!
Trees with other parts. A transform says what becomes of the names, the literals and the other
small parts of a tree, and which lists are merged with their tails; the tree around them stays.
-/

namespace CallGraph

/-- What becomes of the small parts of a tree. Nothing changes unless it is said. -/
structure Transform where
  literal : Literal → Literal := id
  var : String → String := id
  /-- The variables that a function or a binding introduces. -/
  binders : List String → List String := id
  funRef : FunName → FunName := id
  defined : FunName → FunName := id
  primop : String → String := id
  keepsAnnotations : Bool := true
  /-- The patterns of a clause. -/
  patterns : List Pattern → List Pattern := id
  guard : Ann Expr → Ann Expr := id
  /-- The elements and the tail of which a tail consists, if it is merged. -/
  constCells : Const → Option (List Const × Option Const) := fun _ => none
  patternCells : Pattern → Option (List Pattern × Option Pattern) := fun _ => none
  exprCells : Ann Expr → Option (List (Ann Expr) × Option (Ann Expr)) := fun _ => none

namespace Transform

/-- The elements and the tail of a list, with those of its tail. -/
def join {α : Type} (cells : α → Option (List α × Option α)) (xs : List α) (tail : Option α) :
    List α × Option α :=
  match tail.bind cells with
  | some (ys, last) => (xs ++ ys, last)
  | none => (xs, tail)

variable (t : Transform)

/-! ## Trees -/

mutual

def const : Const → Const
  | .lit value => .lit (t.literal value)
  | .tuple elements => .tuple (consts elements)
  | .list elements tail =>
    .list (join t.constCells (consts elements) (const? tail)).1
      (join t.constCells (consts elements) (const? tail)).2
  | .binary segments => .binary (constLists segments)
  | .map pairs => .map (constPairs pairs)

def consts : List Const → List Const
  | [] => []
  | c :: cs => const c :: consts cs

def const? : Option Const → Option Const
  | none => none
  | some c => some (const c)

def constLists : List (List Const) → List (List Const)
  | [] => []
  | cs :: segments => consts cs :: constLists segments

def constPairs : List (Const × Const) → List (Const × Const)
  | [] => []
  | (key, value) :: pairs => (const key, const value) :: constPairs pairs

end

/-- What becomes of annotations. -/
def notes (cs : List Const) : List Const := if t.keepsAnnotations then t.consts cs else []

/-- An annotated part, given what becomes of the part. -/
def ann {α : Type} (f : α → α) (x : Ann α) : Ann α := ⟨f x.node, t.notes x.annotations⟩

mutual

def expr : Expr → Expr
  | .var name => .var (t.var name)
  | .lit value => .lit (t.literal value)
  | .funRef name => .funRef (t.funRef name)
  | .lambda params body => .lambda (t.binders params) (annExpr body)
  | .apply function args => .apply (annExpr function) (annExprs args)
  | .call unit function args => .call (annExpr unit) (annExpr function) (annExprs args)
  | .primop name args => .primop (t.primop name) (annExprs args)
  | .seq first next => .seq (annExpr first) (annExpr next)
  | .letIn vars value body => .letIn (t.binders vars) (annExpr value) (annExpr body)
  | .letRec definitions body => .letRec (annDefinitions definitions) (annExpr body)
  | .caseOf subject clauses => .caseOf (annExpr subject) (annClauses clauses)
  | .receive clauses timeout action =>
    .receive (annClauses clauses) (annExpr timeout) (annExpr action)
  | .tryOf body vars success handlerVars handler =>
    .tryOf (annExpr body) (t.binders vars) (annExpr success) (t.binders handlerVars)
      (annExpr handler)
  | .catching body => .catching (annExpr body)
  | .tuple elements => .tuple (annExprs elements)
  | .list elements tail =>
    .list (join t.exprCells (annExprs elements) (annExpr? tail)).1
      (join t.exprCells (annExprs elements) (annExpr? tail)).2
  | .binary segments => .binary (segmentList segments)
  | .map pairs base => .map (mapPairs pairs) (annExpr? base)
  | .values elements => .values (annExprs elements)

def annExpr : Ann Expr → Ann Expr
  | ⟨e, annotations⟩ => ⟨expr e, t.notes annotations⟩

def annExprs : List (Ann Expr) → List (Ann Expr)
  | [] => []
  | e :: es => annExpr e :: annExprs es

def annExpr? : Option (Ann Expr) → Option (Ann Expr)
  | none => none
  | some e => some (annExpr e)

def definition : Definition → Definition
  | ⟨name, function⟩ => ⟨t.defined name, annExpr function⟩

def annDefinitions : List (Ann Definition) → List (Ann Definition)
  | [] => []
  | ⟨d, annotations⟩ :: ds => ⟨definition d, t.notes annotations⟩ :: annDefinitions ds

def clause : Clause → Clause
  | ⟨patterns, guard, body⟩ =>
    ⟨t.patterns (patternList patterns), t.guard (annExpr guard), annExpr body⟩

def annClauses : List (Ann Clause) → List (Ann Clause)
  | [] => []
  | ⟨c, annotations⟩ :: cs => ⟨clause c, t.notes annotations⟩ :: annClauses cs

def segment : Segment → Segment
  | ⟨value, size, unit, type, flags⟩ =>
    ⟨annExpr value, annExpr size, annExpr unit, annExpr type, annExpr flags⟩

def segmentList : List Segment → List Segment
  | [] => []
  | s :: segments => segment s :: segmentList segments

def mapPair : MapPair → MapPair
  | ⟨key, value, op⟩ => ⟨annExpr key, annExpr value, op⟩

def mapPairs : List MapPair → List MapPair
  | [] => []
  | p :: pairs => mapPair p :: mapPairs pairs

def pattern : Pattern → Pattern
  | .var name => .var (t.var name)
  | .lit value => .lit (t.literal value)
  | .tuple elements => .tuple (patternList elements)
  | .list elements tail =>
    .list (join t.patternCells (patternList elements) (pattern? tail)).1
      (join t.patternCells (patternList elements) (pattern? tail)).2
  | .binary segments => .binary (patternSegments segments)
  | .map pairs => .map (patternPairs pairs)
  | .alias name p => .alias (t.var name) (pattern p)

def patternList : List Pattern → List Pattern
  | [] => []
  | p :: ps => pattern p :: patternList ps

def pattern? : Option Pattern → Option Pattern
  | none => none
  | some p => some (pattern p)

def patternSegment : PatternSegment → PatternSegment
  | ⟨p, size, unit, type, flags⟩ =>
    ⟨pattern p, annExpr size, annExpr unit, annExpr type, annExpr flags⟩

def patternSegments : List PatternSegment → List PatternSegment
  | [] => []
  | s :: segments => patternSegment s :: patternSegments segments

def patternPair : PatternPair → PatternPair
  | ⟨key, p⟩ => ⟨annExpr key, pattern p⟩

def patternPairs : List PatternPair → List PatternPair
  | [] => []
  | p :: pairs => patternPair p :: patternPairs pairs

end

/-- The module with its constants and definitions transformed. Its own names stay. -/
def unit (m : Module) : Module :=
  ⟨m.name, m.exports, m.attributes.map (Prod.map id t.const), t.annDefinitions m.definitions⟩

/-! ## Lists and options of parts -/

@[simp] theorem consts_eq_map (cs : List Const) : t.consts cs = cs.map t.const := by
  induction cs with
  | nil => rfl
  | cons c cs ih => rw [consts, ih, List.map_cons]

theorem notes_congr {as bs : List Const} (h : as.map t.const = bs.map t.const) :
    t.notes as = t.notes bs := by
  rw [notes, notes, consts_eq_map, consts_eq_map, h]

theorem notes_append (as bs : List Const) : t.notes (as ++ bs) = t.notes as ++ t.notes bs := by
  rw [notes, notes, notes]
  split
  · simp
  · rfl

@[simp] theorem const?_eq_map (c : Option Const) : t.const? c = c.map t.const := by
  cases c <;> rfl

@[simp] theorem constLists_eq_map (segments : List (List Const)) :
    t.constLists segments = segments.map (List.map t.const) := by
  induction segments with
  | nil => rfl
  | cons cs segments ih => rw [constLists, ih, consts_eq_map, List.map_cons]

@[simp] theorem constPairs_eq_map (pairs : List (Const × Const)) :
    t.constPairs pairs = pairs.map (Prod.map t.const t.const) := by
  induction pairs with
  | nil => rfl
  | cons pair pairs ih => rw [constPairs, ih, List.map_cons, Prod.map]

@[simp] theorem annExpr_eq_ann (e : Ann Expr) : t.annExpr e = t.ann t.expr e := by
  rw [annExpr, ann]

@[simp] theorem annExprs_eq_map (es : List (Ann Expr)) :
    t.annExprs es = es.map (t.ann t.expr) := by
  induction es with
  | nil => rfl
  | cons e es ih => rw [annExprs, ih, annExpr_eq_ann, List.map_cons]

@[simp] theorem annExpr?_eq_map (e : Option (Ann Expr)) :
    t.annExpr? e = e.map (t.ann t.expr) := by
  cases e with
  | none => rfl
  | some e => rw [annExpr?, annExpr_eq_ann, Option.map_some]

@[simp] theorem annDefinitions_eq_map (ds : List (Ann Definition)) :
    t.annDefinitions ds = ds.map (t.ann t.definition) := by
  induction ds with
  | nil => rfl
  | cons d ds ih => rw [annDefinitions, ih, List.map_cons, ann]

@[simp] theorem annClauses_eq_map (cs : List (Ann Clause)) :
    t.annClauses cs = cs.map (t.ann t.clause) := by
  induction cs with
  | nil => rfl
  | cons c cs ih => rw [annClauses, ih, List.map_cons, ann]

@[simp] theorem segmentList_eq_map (segments : List Segment) :
    t.segmentList segments = segments.map t.segment := by
  induction segments with
  | nil => rfl
  | cons s segments ih => rw [segmentList, ih, List.map_cons]

@[simp] theorem mapPairs_eq_map (pairs : List MapPair) :
    t.mapPairs pairs = pairs.map t.mapPair := by
  induction pairs with
  | nil => rfl
  | cons p pairs ih => rw [mapPairs, ih, List.map_cons]

@[simp] theorem patternList_eq_map (ps : List Pattern) : t.patternList ps = ps.map t.pattern := by
  induction ps with
  | nil => rfl
  | cons p ps ih => rw [patternList, ih, List.map_cons]

@[simp] theorem pattern?_eq_map (p : Option Pattern) : t.pattern? p = p.map t.pattern := by
  cases p with
  | none => rfl
  | some p => rw [pattern?, Option.map_some]

@[simp] theorem patternSegments_eq_map (segments : List PatternSegment) :
    t.patternSegments segments = segments.map t.patternSegment := by
  induction segments with
  | nil => rfl
  | cons s segments ih => rw [patternSegments, ih, List.map_cons]

@[simp] theorem patternPairs_eq_map (pairs : List PatternPair) :
    t.patternPairs pairs = pairs.map t.patternPair := by
  induction pairs with
  | nil => rfl
  | cons p pairs ih => rw [patternPairs, ih, List.map_cons]

/-! ## Trees that stay as they are -/

def unchanged : Transform := {}

@[simp] theorem join_none {α : Type} (xs : List α) (tail : Option α) :
    join (fun _ => none) xs tail = (xs, tail) := by
  cases tail <;> rfl

mutual

theorem unchanged_const : (c : Const) → unchanged.const c = c
  | .lit _ => rfl
  | .tuple elements => by rw [const, unchanged_consts elements]
  | .list elements tail => by
    rw [const, unchanged_consts elements, unchanged_const? tail]
    exact congrArg (fun c : List Const × Option Const => Const.list c.1 c.2)
      (join_none elements tail)
  | .binary segments => by rw [const, unchanged_constLists segments]
  | .map pairs => by rw [const, unchanged_constPairs pairs]

theorem unchanged_consts : (cs : List Const) → unchanged.consts cs = cs
  | [] => rfl
  | c :: cs => by rw [consts, unchanged_const c, unchanged_consts cs]

theorem unchanged_const? : (c : Option Const) → unchanged.const? c = c
  | none => rfl
  | some c => by rw [const?, unchanged_const c]

theorem unchanged_constLists : (segments : List (List Const)) →
    unchanged.constLists segments = segments
  | [] => rfl
  | cs :: segments => by rw [constLists, unchanged_consts cs, unchanged_constLists segments]

theorem unchanged_constPairs : (pairs : List (Const × Const)) → unchanged.constPairs pairs = pairs
  | [] => rfl
  | (key, value) :: pairs => by
    rw [constPairs, unchanged_const key, unchanged_const value, unchanged_constPairs pairs]

end

theorem unchanged_notes (cs : List Const) : unchanged.notes cs = cs := unchanged_consts cs

mutual

theorem unchanged_expr : (e : Expr) → unchanged.expr e = e
  | .var _ | .lit _ | .funRef _ => rfl
  | .lambda _ body => by
    rw [expr, unchanged_annExpr body]
    rfl
  | .catching body => by rw [expr, unchanged_annExpr body]
  | .apply function args => by rw [expr, unchanged_annExpr function, unchanged_annExprs args]
  | .call unit function args => by
    rw [expr, unchanged_annExpr unit, unchanged_annExpr function, unchanged_annExprs args]
  | .primop _ args => by
    rw [expr, unchanged_annExprs args]
    rfl
  | .tuple elements | .values elements => by rw [expr, unchanged_annExprs elements]
  | .seq first next => by rw [expr, unchanged_annExpr first, unchanged_annExpr next]
  | .letIn _ value body => by
    rw [expr, unchanged_annExpr value, unchanged_annExpr body]
    rfl
  | .letRec definitions body => by
    rw [expr, unchanged_annDefinitions definitions, unchanged_annExpr body]
  | .caseOf subject clauses => by
    rw [expr, unchanged_annExpr subject, unchanged_annClauses clauses]
  | .receive clauses timeout action => by
    rw [expr, unchanged_annClauses clauses, unchanged_annExpr timeout, unchanged_annExpr action]
  | .tryOf body _ success _ handler => by
    rw [expr, unchanged_annExpr body, unchanged_annExpr success, unchanged_annExpr handler]
    rfl
  | .list elements tail => by
    rw [expr, unchanged_annExprs elements, unchanged_annExpr? tail]
    exact congrArg (fun c : List (Ann Expr) × Option (Ann Expr) => Expr.list c.1 c.2)
      (join_none elements tail)
  | .binary segments => by rw [expr, unchanged_segmentList segments]
  | .map pairs base => by rw [expr, unchanged_mapPairs pairs, unchanged_annExpr? base]

theorem unchanged_annExpr : (e : Ann Expr) → unchanged.annExpr e = e
  | ⟨e, annotations⟩ => by
    rw [annExpr, unchanged_expr e, unchanged_notes annotations]

theorem unchanged_annExprs : (es : List (Ann Expr)) → unchanged.annExprs es = es
  | [] => rfl
  | e :: es => by rw [annExprs, unchanged_annExpr e, unchanged_annExprs es]

theorem unchanged_annExpr? : (e : Option (Ann Expr)) → unchanged.annExpr? e = e
  | none => rfl
  | some e => by rw [annExpr?, unchanged_annExpr e]

theorem unchanged_annDefinitions : (ds : List (Ann Definition)) → unchanged.annDefinitions ds = ds
  | [] => rfl
  | ⟨⟨_, function⟩, annotations⟩ :: ds => by
    rw [annDefinitions, definition, unchanged_annExpr function, unchanged_notes annotations,
      unchanged_annDefinitions ds]
    rfl

theorem unchanged_annClauses : (cs : List (Ann Clause)) → unchanged.annClauses cs = cs
  | [] => rfl
  | ⟨⟨patterns, guard, body⟩, annotations⟩ :: cs => by
    rw [annClauses, clause, unchanged_patternList patterns, unchanged_annExpr guard,
      unchanged_annExpr body, unchanged_notes annotations, unchanged_annClauses cs]
    rfl

theorem unchanged_segmentList : (segments : List Segment) →
    unchanged.segmentList segments = segments
  | [] => rfl
  | ⟨value, size, unit, type, flags⟩ :: segments => by
    rw [segmentList, segment, unchanged_annExpr value, unchanged_annExpr size,
      unchanged_annExpr unit, unchanged_annExpr type, unchanged_annExpr flags,
      unchanged_segmentList segments]

theorem unchanged_mapPairs : (pairs : List MapPair) → unchanged.mapPairs pairs = pairs
  | [] => rfl
  | ⟨key, value, _⟩ :: pairs => by
    rw [mapPairs, mapPair, unchanged_annExpr key, unchanged_annExpr value, unchanged_mapPairs pairs]

theorem unchanged_pattern : (p : Pattern) → unchanged.pattern p = p
  | .var _ | .lit _ => rfl
  | .tuple elements => by rw [pattern, unchanged_patternList elements]
  | .list elements tail => by
    rw [pattern, unchanged_patternList elements, unchanged_pattern? tail]
    exact congrArg (fun c : List Pattern × Option Pattern => Pattern.list c.1 c.2)
      (join_none elements tail)
  | .binary segments => by rw [pattern, unchanged_patternSegments segments]
  | .map pairs => by rw [pattern, unchanged_patternPairs pairs]
  | .alias _ p => by
    rw [pattern, unchanged_pattern p]
    rfl

theorem unchanged_patternList : (ps : List Pattern) → unchanged.patternList ps = ps
  | [] => rfl
  | p :: ps => by rw [patternList, unchanged_pattern p, unchanged_patternList ps]

theorem unchanged_pattern? : (p : Option Pattern) → unchanged.pattern? p = p
  | none => rfl
  | some p => by rw [pattern?, unchanged_pattern p]

theorem unchanged_patternSegments : (segments : List PatternSegment) →
    unchanged.patternSegments segments = segments
  | [] => rfl
  | ⟨p, size, unit, type, flags⟩ :: segments => by
    rw [patternSegments, patternSegment, unchanged_pattern p, unchanged_annExpr size,
      unchanged_annExpr unit, unchanged_annExpr type, unchanged_annExpr flags,
      unchanged_patternSegments segments]

theorem unchanged_patternPairs : (pairs : List PatternPair) → unchanged.patternPairs pairs = pairs
  | [] => rfl
  | ⟨key, p⟩ :: pairs => by
    rw [patternPairs, patternPair, unchanged_annExpr key, unchanged_pattern p,
      unchanged_patternPairs pairs]

end

theorem unchanged_unit (m : Module) : unchanged.unit m = m := by
  have hconst : unchanged.const = id := funext unchanged_const
  rw [unit, unchanged_annDefinitions, hconst, Prod.map_id, List.map_id]

theorem unchanged_ann {α : Type} {f : α → α} (hf : ∀ x, f x = x) (x : Ann α) :
    unchanged.ann f x = x := by
  rw [ann, hf, unchanged_notes]

theorem ann_injective {α : Type} {f : α → α} (hf : ∀ x, f x = x) :
    Function.Injective (unchanged.ann f) := by
  intro x y h
  rwa [unchanged_ann hf, unchanged_ann hf] at h

end Transform

end CallGraph
