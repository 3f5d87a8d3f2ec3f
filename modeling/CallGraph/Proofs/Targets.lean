import CallGraph.Proofs.Collection
import CallGraph.Proofs.Transform

/-!
The targets of the calls of transformed trees. A transform that merges no lists keeps the targets and
their order, and transforms each of them. If it also keeps the shape of trees, it keeps how deep the
targets are.
-/

namespace CallGraph

namespace Transform

variable {t : Transform}

/-! ## Targets -/

def target (t : Transform) (x : Target) : Target := ⟨t.expr x.unit, t.expr x.function, x.arity⟩

-- By recursion on the tree, with one case for each kind of expression. Only the case of a call has a
-- target of its own.
mutual

theorem expr_targets (h : t.exprCells = fun _ => none) :
    (e : Expr) → (t.expr e).targets = e.targets.map t.target
  | .var _ | .lit _ | .funRef _ => rfl
  | .lambda _ body | .catching body => annExpr_targets h body
  | .apply function args => by
    simp only [expr, Expr.targets, List.map_append, annExpr_targets h function,
      annExprs_targets h args]
  | .call unit function args => by
    have hnode (e : Ann Expr) : (t.annExpr e).node = t.expr e.node := by rw [annExpr]
    have hlength : (t.annExprs args).length = args.length := by
      rw [annExprs_eq_map, List.length_map]
    simp only [expr, Expr.targets, List.map_append, annExpr_targets h unit,
      annExpr_targets h function, annExprs_targets h args, hnode, hlength]
    rfl
  | .primop _ elements | .tuple elements | .values elements => annExprs_targets h elements
  | .seq first next | .letIn _ first next => by
    simp only [expr, Expr.targets, List.map_append, annExpr_targets h first,
      annExpr_targets h next]
  | .letRec definitions body => by
    simp only [expr, Expr.targets, List.map_append, annDefinitions_targets h definitions,
      annExpr_targets h body]
  | .caseOf subject clauses => by
    simp only [expr, Expr.targets, List.map_append, annExpr_targets h subject,
      annClauses_targets h clauses]
  | .receive clauses timeout action => by
    simp only [expr, Expr.targets, List.map_append, annClauses_targets h clauses,
      annExpr_targets h timeout, annExpr_targets h action]
  | .tryOf body _ success _ handler => by
    simp only [expr, Expr.targets, List.map_append, annExpr_targets h body,
      annExpr_targets h success, annExpr_targets h handler]
  | .list elements tail => by
    simp only [expr, h, join_none, Expr.targets, List.map_append, annExprs_targets h elements,
      annExpr?_targets h tail]
  | .binary segments => segmentList_targets h segments
  | .map pairs base => by
    simp only [expr, Expr.targets, List.map_append, annExpr?_targets h base,
      mapPairs_targets h pairs]

theorem annExpr_targets (h : t.exprCells = fun _ => none) :
    (e : Ann Expr) → Expr.annTargets (t.annExpr e) = (Expr.annTargets e).map t.target
  | ⟨e, _⟩ => expr_targets h e

theorem annExprs_targets (h : t.exprCells = fun _ => none) :
    (es : List (Ann Expr)) → Expr.listTargets (t.annExprs es) = (Expr.listTargets es).map t.target
  | [] => rfl
  | e :: es => by
    simp only [annExprs, Expr.listTargets, List.map_append, annExpr_targets h e,
      annExprs_targets h es]

theorem annExpr?_targets (h : t.exprCells = fun _ => none) : (e : Option (Ann Expr)) →
    Expr.optionTargets (t.annExpr? e) = (Expr.optionTargets e).map t.target
  | none => rfl
  | some e => annExpr_targets h e

theorem annDefinitions_targets (h : t.exprCells = fun _ => none) : (ds : List (Ann Definition)) →
    Definition.listTargets (t.annDefinitions ds) = (Definition.listTargets ds).map t.target
  | [] => rfl
  | ⟨⟨_, function⟩, _⟩ :: ds => by
    simp only [annDefinitions, definition, Definition.listTargets, List.map_append,
      annExpr_targets h function, annDefinitions_targets h ds]

theorem annClauses_targets (h : t.exprCells = fun _ => none) : (cs : List (Ann Clause)) →
    Clause.listTargets (t.annClauses cs) = (Clause.listTargets cs).map t.target
  | [] => rfl
  | ⟨⟨_, _, body⟩, _⟩ :: cs => by
    simp only [annClauses, clause, Clause.listTargets, List.map_append, annExpr_targets h body,
      annClauses_targets h cs]

theorem segmentList_targets (h : t.exprCells = fun _ => none) : (segments : List Segment) →
    Segment.listTargets (t.segmentList segments) = (Segment.listTargets segments).map t.target
  | [] => rfl
  | ⟨value, size, unit, type, flags⟩ :: segments => by
    simp only [segmentList, segment, Segment.listTargets, List.map_append, annExpr_targets h value,
      annExpr_targets h size, annExpr_targets h unit, annExpr_targets h type,
      annExpr_targets h flags, segmentList_targets h segments]

theorem mapPairs_targets (h : t.exprCells = fun _ => none) : (pairs : List MapPair) →
    MapPair.listTargets (t.mapPairs pairs) = (MapPair.listTargets pairs).map t.target
  | [] => rfl
  | ⟨key, value, _⟩ :: pairs => by
    simp only [mapPairs, mapPair, MapPair.listTargets, List.map_append, annExpr_targets h key,
      annExpr_targets h value, mapPairs_targets h pairs]

end

/-- Atoms stay atoms, and nothing else becomes one. -/
def KeepsNames (t : Transform) : Prop :=
  ∀ value, (Expr.lit (t.literal value)).isName = (Expr.lit value).isName

theorem KeepsNames.isName_expr (h : t.KeepsNames) (e : Expr) : (t.expr e).isName = e.isName := by
  cases e with
  | lit value => exact h value
  | _ => rfl

theorem KeepsNames.isPlain_target (h : t.KeepsNames) (x : Target) :
    (t.target x).isPlain = x.isPlain := by
  rw [Target.isPlain, Target.isPlain, target, h.isName_expr, h.isName_expr]

/-! ## Depths -/

/-- The transform changes values only: what has parts keeps its parts. -/
structure KeepsShape (t : Transform) : Prop where
  literal : ∀ value, (t.literal value).outline.depth = value.outline.depth
  binders : ∀ vars, (Outline.names (t.binders vars)).depth = (Outline.names vars).depth
  keepsAnnotations : t.keepsAnnotations = true
  patterns : t.patterns = id
  guard : t.guard = id
  constCells : t.constCells = fun _ => none
  patternCells : t.patternCells = fun _ => none
  exprCells : t.exprCells = fun _ => none

namespace KeepsShape

open Outline (depth depthAll depthFields)

mutual

theorem const (h : t.KeepsShape) : (c : Const) → (t.const c).outline.depth = c.outline.depth
  | .lit value => h.literal value
  | .tuple elements => by
    simp only [Transform.const, Const.outline, depth, depthFields, h.consts elements]
  | .list elements tail => by
    simp only [Transform.const, h.constCells, join_none, Const.outline, depth, depthFields,
      h.consts elements, h.const? tail]
  | .binary segments => by
    simp only [Transform.const, Const.outline, depth, depthFields, h.constLists segments]
  | .map pairs => by
    simp only [Transform.const, Const.outline, depth, depthFields, h.constPairs pairs]

theorem consts (h : t.KeepsShape) : (cs : List Const) →
    depthAll (Const.outlines (t.consts cs)) = depthAll (Const.outlines cs)
  | [] => rfl
  | c :: cs => by simp only [Transform.consts, Const.outlines, depthAll, h.const c, h.consts cs]

theorem const? (h : t.KeepsShape) : (c : Option Const) →
    (Const.outline? (t.const? c)).depth = (Const.outline? c).depth
  | none => rfl
  | some c => h.const c

theorem constLists (h : t.KeepsShape) : (segments : List (List Const)) →
    depthAll (Const.segmentOutlines (t.constLists segments)) =
      depthAll (Const.segmentOutlines segments)
  | [] => rfl
  | cs :: segments => by
    simp only [Transform.constLists, Const.segmentOutlines, depthAll, depth, h.consts cs,
      h.constLists segments]

theorem constPairs (h : t.KeepsShape) : (pairs : List (Const × Const)) →
    depthAll (Const.pairOutlines (t.constPairs pairs)) = depthAll (Const.pairOutlines pairs)
  | [] => rfl
  | (key, value) :: pairs => by
    simp only [Transform.constPairs, Const.pairOutlines, depthAll, depth, h.const key,
      h.const value, h.constPairs pairs]

end

theorem annotated (h : t.KeepsShape) {node node' : Outline} (hnode : node'.depth = node.depth)
    (annotations : List Const) :
    (Outline.annotated node' (t.notes annotations)).depth =
      (Outline.annotated node annotations).depth := by
  rw [notes, h.keepsAnnotations, if_pos rfl]
  simp only [Outline.annotated, depth, depthFields, hnode, h.consts annotations]

theorem depth_funName (f f' : FunName) : f'.outline.depth = f.outline.depth := rfl

mutual

theorem expr (h : t.KeepsShape) : (e : Expr) → (t.expr e).outline.depth = e.outline.depth
  | .var _ | .funRef _ => rfl
  | .lit value => by
    simp only [Transform.expr, Expr.outline, depth, depthFields, h.literal value]
  | .lambda params body => by
    simp only [Transform.expr, Expr.outline, depth, depthFields, h.binders params, h.annExpr body]
  | .apply function args => by
    simp only [Transform.expr, Expr.outline, depth, depthFields, h.annExpr function,
      h.annExprs args]
  | .call unit function args => by
    simp only [Transform.expr, Expr.outline, depth, depthFields, h.annExpr unit,
      h.annExpr function, h.annExprs args]
  | .primop _ args => by
    simp only [Transform.expr, Expr.outline, depth, depthFields, h.annExprs args]
  | .seq first next => by
    simp only [Transform.expr, Expr.outline, depth, depthFields, h.annExpr first, h.annExpr next]
  | .letIn vars value body => by
    simp only [Transform.expr, Expr.outline, depth, depthFields, h.binders vars, h.annExpr value,
      h.annExpr body]
  | .letRec definitions body => by
    simp only [Transform.expr, Expr.outline, depth, depthFields, h.annDefinitions definitions,
      h.annExpr body]
  | .caseOf subject clauses => by
    simp only [Transform.expr, Expr.outline, depth, depthFields, h.annExpr subject,
      h.annClauses clauses]
  | .receive clauses timeout action => by
    simp only [Transform.expr, Expr.outline, depth, depthFields, h.annClauses clauses,
      h.annExpr timeout, h.annExpr action]
  | .tryOf body vars success handlerVars handler => by
    simp only [Transform.expr, Expr.outline, depth, depthFields, h.annExpr body, h.binders vars,
      h.annExpr success, h.binders handlerVars, h.annExpr handler]
  | .catching body => by
    simp only [Transform.expr, Expr.outline, depth, depthFields, h.annExpr body]
  | .tuple elements | .values elements => by
    simp only [Transform.expr, Expr.outline, depth, depthFields, h.annExprs elements]
  | .list elements tail => by
    simp only [Transform.expr, h.exprCells, join_none, Expr.outline, depth, depthFields,
      h.annExprs elements, h.annExpr? tail]
  | .binary segments => by
    simp only [Transform.expr, Expr.outline, depth, depthFields, h.segmentList segments]
  | .map pairs base => by
    simp only [Transform.expr, Expr.outline, depth, depthFields, h.mapPairs pairs, h.annExpr? base]

theorem annExpr (h : t.KeepsShape) : (e : Ann Expr) →
    (Expr.annOutline (t.annExpr e)).depth = (Expr.annOutline e).depth
  | ⟨e, annotations⟩ => h.annotated (h.expr e) annotations

theorem annExprs (h : t.KeepsShape) : (es : List (Ann Expr)) →
    depthAll (Expr.annOutlines (t.annExprs es)) = depthAll (Expr.annOutlines es)
  | [] => rfl
  | e :: es => by
    simp only [Transform.annExprs, Expr.annOutlines, depthAll, h.annExpr e, h.annExprs es]

theorem annExpr? (h : t.KeepsShape) : (e : Option (Ann Expr)) →
    (Expr.annOutline? (t.annExpr? e)).depth = (Expr.annOutline? e).depth
  | none => rfl
  | some e => h.annExpr e

theorem annDefinitions (h : t.KeepsShape) : (ds : List (Ann Definition)) →
    depthAll (Definition.annOutlines (t.annDefinitions ds)) = depthAll (Definition.annOutlines ds)
  | [] => rfl
  | ⟨⟨name, function⟩, annotations⟩ :: ds => by
    have hnode : (t.definition ⟨name, function⟩).outline.depth =
        (Definition.outline ⟨name, function⟩).depth := by
      simp only [Transform.definition, Definition.outline, depth, depthFields,
        depth_funName name (t.defined name), h.annExpr function]
    simp only [Transform.annDefinitions, Definition.annOutlines, depthAll,
      h.annotated hnode annotations, h.annDefinitions ds]

theorem annClauses (h : t.KeepsShape) : (cs : List (Ann Clause)) →
    depthAll (Clause.annOutlines (t.annClauses cs)) = depthAll (Clause.annOutlines cs)
  | [] => rfl
  | ⟨⟨patterns, guard, body⟩, annotations⟩ :: cs => by
    have hnode : (t.clause ⟨patterns, guard, body⟩).outline.depth =
        (Clause.outline ⟨patterns, guard, body⟩).depth := by
      simp only [Transform.clause, h.patterns, h.guard, id_eq, Clause.outline, depth, depthFields,
        h.patternList patterns, h.annExpr guard, h.annExpr body]
    simp only [Transform.annClauses, Clause.annOutlines, depthAll, h.annotated hnode annotations,
      h.annClauses cs]

theorem segmentList (h : t.KeepsShape) : (segments : List Segment) →
    depthAll (Segment.outlines (t.segmentList segments)) = depthAll (Segment.outlines segments)
  | [] => rfl
  | ⟨value, size, unit, type, flags⟩ :: segments => by
    simp only [Transform.segmentList, segment, Segment.outlines, depthAll, depth, depthFields,
      h.annExpr value, h.annExpr size, h.annExpr unit, h.annExpr type, h.annExpr flags,
      h.segmentList segments]

theorem mapPairs (h : t.KeepsShape) : (pairs : List MapPair) →
    depthAll (MapPair.outlines (t.mapPairs pairs)) = depthAll (MapPair.outlines pairs)
  | [] => rfl
  | ⟨key, value, _⟩ :: pairs => by
    simp only [Transform.mapPairs, mapPair, MapPair.outlines, depthAll, depth, depthFields,
      h.annExpr key, h.annExpr value, h.mapPairs pairs]

theorem pattern (h : t.KeepsShape) : (p : Pattern) →
    (t.pattern p).outline.depth = p.outline.depth
  | .var _ => rfl
  | .lit value => by
    simp only [Transform.pattern, Pattern.outline, depth, depthFields, h.literal value]
  | .tuple elements => by
    simp only [Transform.pattern, Pattern.outline, depth, depthFields, h.patternList elements]
  | .list elements tail => by
    simp only [Transform.pattern, h.patternCells, join_none, Pattern.outline, depth, depthFields,
      h.patternList elements, h.pattern? tail]
  | .binary segments => by
    simp only [Transform.pattern, Pattern.outline, depth, depthFields, h.patternSegments segments]
  | .map pairs => by
    simp only [Transform.pattern, Pattern.outline, depth, depthFields, h.patternPairs pairs]
  | .alias _ p => by
    simp only [Transform.pattern, Pattern.outline, depth, depthFields, h.pattern p]

theorem patternList (h : t.KeepsShape) : (ps : List Pattern) →
    depthAll (Pattern.outlines (t.patternList ps)) = depthAll (Pattern.outlines ps)
  | [] => rfl
  | p :: ps => by
    simp only [Transform.patternList, Pattern.outlines, depthAll, h.pattern p, h.patternList ps]

theorem pattern? (h : t.KeepsShape) : (p : Option Pattern) →
    (Pattern.outline? (t.pattern? p)).depth = (Pattern.outline? p).depth
  | none => rfl
  | some p => h.pattern p

theorem patternSegments (h : t.KeepsShape) : (segments : List PatternSegment) →
    depthAll (PatternSegment.outlines (t.patternSegments segments)) =
      depthAll (PatternSegment.outlines segments)
  | [] => rfl
  | ⟨p, size, unit, type, flags⟩ :: segments => by
    simp only [Transform.patternSegments, patternSegment, PatternSegment.outlines, depthAll, depth,
      depthFields, h.pattern p, h.annExpr size, h.annExpr unit, h.annExpr type, h.annExpr flags,
      h.patternSegments segments]

theorem patternPairs (h : t.KeepsShape) : (pairs : List PatternPair) →
    depthAll (PatternPair.outlines (t.patternPairs pairs)) =
      depthAll (PatternPair.outlines pairs)
  | [] => rfl
  | ⟨key, p⟩ :: pairs => by
    simp only [Transform.patternPairs, patternPair, PatternPair.outlines, depthAll, depth,
      depthFields, h.annExpr key, h.pattern p, h.patternPairs pairs]

end

theorem fits_target (h : t.KeepsShape) (hnames : t.KeepsNames) (limit : Nat) (x : Target) :
    (t.target x).fits limit = x.fits limit := by
  have hdepth : (t.target x).outline.depth = x.outline.depth := by
    simp only [target, Target.outline, depth, depthAll, h.expr]
  rw [Target.fits, Target.fits, hnames.isPlain_target, hdepth]

end KeepsShape

end Transform

end CallGraph
