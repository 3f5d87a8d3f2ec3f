import CallGraph.Call.Extraction
import CallGraph.Conversion

/-!
The calls of an expression by recursion on the expression, and the walk that finds them with a list
of what is still to be looked at. A step of the walk changes neither the calls nor their order, so
a whole walk finds what the recursion finds. There are no calls at all if one of them goes to a
target that is too deep to be described.
-/

namespace CallGraph

/-! ## Targets -/

/-- Whether the expression is an atom or a variable, so that a call can name it. -/
def Expr.isName : Expr → Bool
  | .lit (.atom _) | .var _ => true
  | _ => false

theorem Expr.of_isName {e : Expr} (h : e.isName = true) :
    (∃ a, e = .lit (.atom a)) ∨ ∃ v, e = .var v := by
  rw [isName.eq_def] at h
  split at h
  case h_1 a => exact .inl ⟨a, rfl⟩
  case h_2 v => exact .inr ⟨v, rfl⟩
  case h_3 => cases h

/-- What a call goes to. -/
structure Target where
  unit : Expr
  function : Expr
  arity : Int

namespace Target

def isPlain (t : Target) : Bool := t.unit.isName && t.function.isName

def outline (t : Target) : Outline := .tuple [t.unit.outline, t.function.outline, .integer t.arity]

/-- The call of a target, with its description however deep the target is. -/
def call (t : Target) : Call :=
  match t.unit, t.function with
  | .lit (.atom m), .lit (.atom f) => .static m f t.arity
  | .lit (.atom m), .var f => .dynFunction m f t.arity
  | .var m, .lit (.atom f) => .dynModule m f t.arity
  | .var m, .var f => .dynAll m f t.arity
  | _, _ => .unimplemented t.outline.describe

/-- Whether the target is plain, or can be described with at most `limit` calls open at once. -/
def fits (limit : Nat) (t : Target) : Bool := t.isPlain || t.outline.depth ≤ limit

theorem fits_iff {limit : Nat} {t : Target} :
    t.fits limit = true ↔ t.isPlain ∨ t.outline.depth ≤ limit := by
  rw [fits, Bool.or_eq_true, decide_eq_true_iff]

theorem call_of_not_isPlain {t : Target} (h : t.isPlain = false) :
    t.call = .unimplemented t.outline.describe := by
  obtain ⟨unit, function, arity⟩ := t
  rw [call.eq_def]
  split
  case h_5 => rfl
  all_goals
    subst_vars
    cases h

theorem classify_eq (limit : Nat) (t : Target) :
    Call.classify limit t.unit t.function t.arity =
      if t.fits limit then .ok t.call else .error .tooDeep := by
  cases h : t.isPlain with
  | true =>
    obtain ⟨unit, function, arity⟩ := t
    obtain ⟨hunit, hfunction⟩ := Bool.and_eq_true_iff.1 h
    rw [fits, h, Bool.true_or, if_pos rfl]
    obtain ⟨a, rfl⟩ | ⟨v, rfl⟩ := Expr.of_isName hunit <;>
      obtain ⟨b, rfl⟩ | ⟨w, rfl⟩ := Expr.of_isName hfunction <;> rfl
  | false =>
    rw [fits, h, Bool.false_or, call_of_not_isPlain h, Call.classify.eq_def]
    split
    case h_5 =>
      rw [Outline.dump, outline]
      by_cases hdepth :
        (Outline.tuple [t.unit.outline, t.function.outline, .integer t.arity]).depth ≤ limit <;>
        simp [hdepth]
    all_goals simp_all [isPlain, Expr.isName]

end Target

mutual

/-- The targets of the calls of an expression from left to right, that of a call after those of its
parts. Guards and patterns have none. -/
def Expr.targets : Expr → List Target
  | .var _ | .lit _ | .funRef _ => []
  | .lambda _ body => Expr.annTargets body
  | .apply function args => Expr.annTargets function ++ Expr.listTargets args
  | .call unit function args =>
    Expr.annTargets unit ++ Expr.annTargets function ++ Expr.listTargets args ++
      [⟨unit.node, function.node, args.length⟩]
  | .primop _ args => Expr.listTargets args
  | .seq first next => Expr.annTargets first ++ Expr.annTargets next
  | .letIn _ value body => Expr.annTargets value ++ Expr.annTargets body
  | .letRec definitions body => Definition.listTargets definitions ++ Expr.annTargets body
  | .caseOf subject clauses => Expr.annTargets subject ++ Clause.listTargets clauses
  | .receive clauses timeout action =>
    Clause.listTargets clauses ++ Expr.annTargets timeout ++ Expr.annTargets action
  | .tryOf body _ success _ handler =>
    Expr.annTargets body ++ Expr.annTargets success ++ Expr.annTargets handler
  | .catching body => Expr.annTargets body
  | .tuple elements | .values elements => Expr.listTargets elements
  | .list elements tail => Expr.listTargets elements ++ Expr.optionTargets tail
  | .binary segments => Segment.listTargets segments
  | .map pairs base => Expr.optionTargets base ++ MapPair.listTargets pairs

def Expr.annTargets : Ann Expr → List Target
  | ⟨e, _⟩ => e.targets

def Expr.listTargets : List (Ann Expr) → List Target
  | [] => []
  | e :: es => Expr.annTargets e ++ Expr.listTargets es

def Expr.optionTargets : Option (Ann Expr) → List Target
  | none => []
  | some e => Expr.annTargets e

def Definition.listTargets : List (Ann Definition) → List Target
  | [] => []
  | ⟨⟨_, function⟩, _⟩ :: ds => Expr.annTargets function ++ Definition.listTargets ds

def Clause.listTargets : List (Ann Clause) → List Target
  | [] => []
  | ⟨⟨_, _, body⟩, _⟩ :: cs => Expr.annTargets body ++ Clause.listTargets cs

def Segment.listTargets : List Segment → List Target
  | [] => []
  | ⟨value, size, unit, type, flags⟩ :: segments =>
    Expr.annTargets value ++ Expr.annTargets size ++ Expr.annTargets unit ++
      Expr.annTargets type ++ Expr.annTargets flags ++ Segment.listTargets segments

def MapPair.listTargets : List MapPair → List Target
  | [] => []
  | ⟨key, value, _⟩ :: pairs =>
    Expr.annTargets key ++ Expr.annTargets value ++ MapPair.listTargets pairs

end

def Module.targets (m : Module) : List Target := Definition.listTargets m.definitions

namespace Expr

/-! The parts of an expression, taken one after the other, have its targets but its own. -/

@[simp] theorem targets_node (e : Ann Expr) : e.node.targets = annTargets e := by
  rw [annTargets]

@[simp] theorem flatMap_nodes (es : List (Ann Expr)) :
    (nodes es).flatMap targets = listTargets es := by
  induction es with
  | nil => rfl
  | cons e es ih =>
    rw [nodes] at ih ⊢
    rw [List.map_cons, List.flatMap_cons, ih, targets_node, listTargets]

@[simp] theorem listTargets_toList (e : Option (Ann Expr)) :
    listTargets e.toList = optionTargets e := by
  cases e with
  | none => rfl
  | some e => exact List.append_nil _

@[simp] theorem flatMap_functions (ds : List (Ann Definition)) :
    (functions ds).flatMap targets = Definition.listTargets ds := by
  induction ds with
  | nil => rfl
  | cons d ds ih =>
    obtain ⟨⟨name, function⟩, annotations⟩ := d
    rw [functions] at ih ⊢
    rw [List.map_cons, List.flatMap_cons, ih, targets_node, Definition.listTargets]

@[simp] theorem flatMap_bodies (cs : List (Ann Clause)) :
    (bodies cs).flatMap targets = Clause.listTargets cs := by
  induction cs with
  | nil => rfl
  | cons c cs ih =>
    obtain ⟨⟨patterns, guard, body⟩, annotations⟩ := c
    rw [bodies] at ih ⊢
    rw [List.map_cons, List.flatMap_cons, ih, targets_node, Clause.listTargets]

@[simp] theorem flatMap_segmentParts (segments : List Segment) :
    (segmentParts segments).flatMap targets = Segment.listTargets segments := by
  induction segments with
  | nil => rfl
  | cons s segments ih =>
    obtain ⟨value, size, unit, type, flags⟩ := s
    rw [segmentParts] at ih ⊢
    rw [List.flatMap_cons, List.flatMap_append, ih, flatMap_nodes, Segment.listTargets]
    simp [listTargets]

@[simp] theorem flatMap_pairParts (pairs : List MapPair) :
    (pairParts pairs).flatMap targets = MapPair.listTargets pairs := by
  induction pairs with
  | nil => rfl
  | cons p pairs ih =>
    obtain ⟨key, value, op⟩ := p
    rw [pairParts] at ih ⊢
    rw [List.flatMap_cons, List.flatMap_append, ih, flatMap_nodes, MapPair.listTargets]
    simp [listTargets]

/-- The target of the call that an expression itself makes. -/
def ownTargets : Expr → List Target
  | .call unit function args => [⟨unit.node, function.node, args.length⟩]
  | _ => []

theorem flatMap_walked (e : Expr) : e.walked.flatMap targets ++ e.ownTargets = e.targets := by
  cases e <;> simp [walked, ownTargets, targets]

theorem made_eq (limit : Nat) (e : Expr) :
    e.made limit =
      if e.ownTargets.all (·.fits limit) then .ok (e.ownTargets.map Target.call)
      else .error .tooDeep := by
  cases e with
  | call unit function args =>
    let t : Target := ⟨unit.node, function.node, args.length⟩
    have ht : Call.classify limit unit.node function.node args.length = _ := t.classify_eq limit
    have hown : (call unit function args).ownTargets = [t] := rfl
    rw [made, ht, hown, List.all_cons, List.all_nil, Bool.and_true]
    split <;> rfl
  | _ => rfl

end Expr

/-! ## Walks -/

namespace Item

/-- The calls of an item by recursion. -/
def calls : Item → List Call
  | .expr e => e.targets.map Target.call
  | .call c => [c]
  | .other _ => []

/-- Why no calls are found in an item, if none are. -/
def error? (limit : Nat) : Item → Option ExtractError
  | .expr e => if e.targets.all (·.fits limit) then none else some .tooDeep
  | .call _ => none
  | .other part => some (.noRule part)

@[simp] theorem flatMap_exprs (es : List Expr) :
    (es.map expr).flatMap calls = (es.flatMap Expr.targets).map Target.call := by
  rw [List.flatMap_map, List.map_flatMap]
  rfl

@[simp] theorem flatMap_calls (cs : List Call) : (cs.map call).flatMap calls = cs := by
  rw [List.flatMap_map]
  exact List.flatMap_singleton' cs

theorem findSome?_exprs (limit : Nat) (es : List Expr) :
    (es.map expr).findSome? (error? limit) =
      if (es.flatMap Expr.targets).all (·.fits limit) then none else some .tooDeep := by
  induction es with
  | nil => rfl
  | cons e es ih =>
    rw [List.map_cons, List.findSome?_cons, ih, List.flatMap_cons, List.all_append, error?]
    cases e.targets.all (·.fits limit) <;> rfl

theorem findSome?_calls (limit : Nat) (cs : List Call) :
    (cs.map call).findSome? (error? limit) = none := by
  rw [List.findSome?_eq_none_iff]
  rintro _ hi
  obtain ⟨c, -, rfl⟩ := List.mem_map.1 hi
  rfl

/-- What the recursion gives for items, one after the other: the calls of all, or what is wrong with
the first that has none. -/
def outcome (limit : Nat) (items : List Item) : Except ExtractError (List Call) :=
  match items.findSome? (error? limit) with
  | none => .ok (items.flatMap calls)
  | some e => .error e

theorem outcome_congr {limit : Nat} {items items' : List Item}
    (herror : items.findSome? (error? limit) = items'.findSome? (error? limit))
    (hcalls : items.flatMap calls = items'.flatMap calls) :
    outcome limit items = outcome limit items' := by
  rw [outcome, outcome, herror, hcalls]

/-- An expression may be replaced by its parts and the call that it makes. -/
theorem outcome_expr {limit : Nat} {e : Expr} (rest : List Item)
    (h : e.ownTargets.all (·.fits limit) = true) :
    outcome limit (e.walked.map expr ++ (e.ownTargets.map Target.call).map call ++ rest) =
      outcome limit (.expr e :: rest) := by
  apply outcome_congr
  · rw [List.findSome?_append, List.findSome?_append, findSome?_exprs, findSome?_calls,
      List.findSome?_cons, error?, ← e.flatMap_walked, List.all_append, h, Bool.and_true]
    cases (e.walked.flatMap Expr.targets).all (·.fits limit) <;> rfl
  · rw [List.flatMap_append, List.flatMap_append, flatMap_exprs, flatMap_calls, List.flatMap_cons,
      calls, ← e.flatMap_walked, List.map_append]

theorem outcome_call (limit : Nat) (c : Call) (rest : List Item) :
    outcome limit (.call c :: rest) = (c :: ·) <$> outcome limit rest := by
  rw [outcome, outcome, List.findSome?_cons]
  cases rest.findSome? (error? limit) <;> rfl

end Item

namespace Walk

/-- What a walk finds in all: the calls found so far, and those of what is left. -/
def outcome (limit : Nat) (w : Walk) : Except ExtractError (List Call) :=
  (w.found.reverse ++ ·) <$> Item.outcome limit w.pending

theorem outcome_of_step {limit : Nat} {w w' : Walk} (h : w.step limit = .ok (some w')) :
    w'.outcome limit = w.outcome limit := by
  rcases w with ⟨_ | ⟨e | c | p, rest⟩, found⟩
  · cases h
  · rw [step, Expr.made_eq] at h
    split at h
    case isFalse => cases h
    case isTrue hown =>
      cases h
      rw [outcome, outcome, Item.outcome_expr rest hown]
  · cases h
    rw [outcome, outcome, Item.outcome_call]
    cases Item.outcome limit rest with
    | error e => rfl
    | ok cs => exact congrArg Except.ok (by simp)
  · cases h

theorem outcome_of_step_eq_none {limit : Nat} {w : Walk} (h : w.step limit = .ok none) :
    w.outcome limit = .ok w.found.reverse := by
  rcases w with ⟨_ | ⟨e | c | p, rest⟩, found⟩
  · exact congrArg Except.ok (List.append_nil _)
  · rw [step] at h
    cases hmade : e.made limit <;> rw [hmade] at h <;> cases h
  · cases h
  · cases h

/-- A walk fails at its first item, and so the recursion fails for the same reason. -/
theorem outcome_of_step_eq_error {limit : Nat} {w : Walk} {error : ExtractError}
    (h : w.step limit = .error error) : w.outcome limit = .error error := by
  rcases w with ⟨_ | ⟨e | c | p, rest⟩, found⟩
  · cases h
  · rw [step, Expr.made_eq] at h
    split at h
    case isTrue => cases h
    case isFalse hown =>
      cases h
      have herror : (Item.expr e).error? limit = some .tooDeep := by
        rw [Item.error?, ← e.flatMap_walked, List.all_append, Bool.eq_false_iff.2 hown,
          Bool.and_false]
        rfl
      rw [outcome, Item.outcome, List.findSome?_cons, herror]
      rfl
  · cases h
  · cases h
    rfl

theorem run_eq_outcome (limit : Nat) (w : Walk) : w.run limit = w.outcome limit := by
  fun_induction run limit w with
  | case1 w e h => exact (outcome_of_step_eq_error h).symm
  | case2 w h => exact (outcome_of_step_eq_none h).symm
  | case3 w w' h ih => exact ih.trans (outcome_of_step h)

end Walk

theorem extractCalls_eq_outcome (limit : Nat) (roots : List Item) :
    extractCalls limit roots = Item.outcome limit roots := by
  rw [extractCalls, Walk.run_eq_outcome, Walk.outcome]
  cases Item.outcome limit roots <;> rfl

/-- What is told of an item in which no calls are found. -/
def Item.complaint? (limit : Nat) : Item → Option String
  | .expr e =>
    if ∀ t ∈ e.targets, t.isPlain ∨ t.outline.depth ≤ limit then none
    else some "maximum recursion depth exceeded"
  | .call _ => none
  | .other part => some ("No cross-reference rule for " ++ part.label)

theorem Item.complaint?_eq (limit : Nat) (i : Item) :
    i.complaint? limit = (i.error? limit).map ExtractError.message := by
  cases i with
  | expr e =>
    have hfits : (∀ t ∈ e.targets, t.isPlain ∨ t.outline.depth ≤ limit) ↔
        e.targets.all (·.fits limit) = true := by
      simp only [List.all_eq_true, Target.fits_iff]
    rw [complaint?, error?]
    simp only [hfits]
    cases e.targets.all (·.fits limit) <;> rfl
  | call | other => rfl

/-- The calls of the roots are those of each root by recursion, in the order of the roots. There are
none if there is no rule for a root, or if a target in it is not plain and is too deep. What is told
then is about the first such root. -/
theorem extractCalls_eq_concatenation (limit : Nat) (roots : List Item) :
    ((extractCalls limit roots).mapError ExtractError.message =
      match roots.findSome? (Item.complaint? limit) with
      | none => .ok (roots.flatMap Item.calls)
      | some message => .error message) ∧
    ∀ t : Target, t.isPlain ∨ t.outline.depth ≤ limit →
      Call.classify limit t.unit t.function t.arity = .ok t.call := by
  have hcomplaint : roots.findSome? (Item.complaint? limit) =
      (roots.findSome? (Item.error? limit)).map ExtractError.message := by
    rw [List.map_findSome?]
    exact congrArg (roots.findSome? ·) (funext (Item.complaint?_eq limit))
  constructor
  · rw [extractCalls_eq_outcome, Item.outcome, hcomplaint]
    cases roots.findSome? (Item.error? limit) <;> rfl
  · intro t ht
    rw [t.classify_eq, if_pos (t.fits_iff.2 ht)]

/-! ## A target that is too deep -/

/-- A chain of `n` bindings before an atom. -/
def Expr.letChain : Nat → Expr
  | 0 => .lit (.atom "m")
  | n + 1 => .letIn ["X"] (.plain (.lit (.atom "ok"))) (.plain (letChain n))

/-- The call of `f` in the module that is the value of a chain of `n` bindings. -/
def Expr.callToChain (n : Nat) : Expr := .call (.plain (letChain n)) (.plain (.lit (.atom "f"))) []

theorem Expr.lt_depth_letChain (n : Nat) : 6 * n < (letChain n).outline.depth := by
  induction n with
  | zero => decide
  | succ n ih =>
    simp only [letChain, outline, annOutline, Ann.plain, Outline.annotated, Outline.depth,
      Outline.depthFields]
    omega

theorem Expr.targets_letChain (n : Nat) : (letChain n).targets = [] := by
  induction n with
  | zero => rfl
  | succ n ih => simp [letChain, targets, annTargets, Ann.plain, ih]

theorem Expr.targets_callToChain (n : Nat) :
    (callToChain n).targets = [⟨letChain n, .lit (.atom "f"), 0⟩] := by
  simp [callToChain, targets, annTargets, listTargets, Ann.plain, targets_letChain]

theorem Expr.fits_callToChain {limit n : Nat} (hn : 0 < n) (h : limit ≤ 6 * n) :
    (callToChain n).targets.all (·.fits limit) = false := by
  have hdepth := lt_depth_letChain n
  obtain ⟨n, rfl⟩ := Nat.exists_eq_add_of_lt hn
  rw [targets_callToChain, List.all_cons, List.all_nil, Bool.and_true, Bool.eq_false_iff, ne_eq,
    Target.fits_iff]
  rintro (hplain | hle)
  · cases hplain
  · simp only [Target.outline, Outline.depth, Outline.depthAll] at hle
    omega

/-- The recursion has a call for a call to a chain of a thousand bindings, but the walk fails. -/
theorem extractCalls_callToChain :
    (Item.expr (.callToChain 1000)).calls.length = 1 ∧
      extractCalls stackLimit [.expr (.callToChain 1000)] = .error .tooDeep := by
  constructor
  · rw [Item.calls, Expr.targets_callToChain]
    rfl
  · have hfits := @Expr.fits_callToChain stackLimit 1000 (by decide) (by decide)
    rw [extractCalls_eq_outcome, Item.outcome, List.findSome?_cons, Item.error?, hfits]
    rfl

/-! ## Reports -/

theorem Module.report_eq (limit : Nat) (m : Module) :
    m.report limit =
      if m.targets.all (·.fits limit) then .ok ⟨m.name, m.targets.map Target.call⟩
      else .error .tooDeep := by
  rw [report, extractCalls_eq_outcome, Item.outcome, Item.findSome?_exprs, Item.flatMap_exprs,
    Expr.flatMap_functions, targets]
  cases (Definition.listTargets m.definitions).all (·.fits limit) <;> rfl

/-- The targets of the module are plain, or can be described with at most `limit` calls open at
once. -/
def Module.Describable (limit : Nat) (m : Module) : Prop :=
  ∀ t ∈ m.targets, t.isPlain ∨ t.outline.depth ≤ limit

theorem Module.describable_iff {limit : Nat} {m : Module} :
    m.Describable limit ↔ m.targets.all (·.fits limit) = true := by
  simp only [Describable, List.all_eq_true, Target.fits_iff]

/-- A module has a report just if it can be described. -/
theorem Module.report_of_describable {limit : Nat} {m : Module} (h : m.Describable limit) :
    m.report limit = .ok ⟨m.name, m.targets.map Target.call⟩ := by
  rw [report_eq, if_pos (describable_iff.1 h)]

theorem Module.report_of_not_describable {limit : Nat} {m : Module} (h : ¬ m.Describable limit) :
    m.report limit = .error .tooDeep := by
  rw [report_eq, if_neg fun hfits => h (describable_iff.2 hfits)]

end CallGraph
