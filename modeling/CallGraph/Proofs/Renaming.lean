import CallGraph.Core.Parser.Grammar
import CallGraph.Proofs.Targets

/-!
New names for atoms, variables and strings, in tokens, in trees and in calls. The calls of a tree in
which names are changed are the calls of the tree with their targets changed, in the same order. Only
the description of a call whose target is not plain may be another one.
-/

namespace CallGraph

/-- What is put in the place of the value of an atom, of a variable and of a string. Nothing is asked
of it: different names may become the same. -/
structure Renaming where
  (atom var string : String → String)

namespace Renaming

variable (r : Renaming)

/-! ## Tokens and trees -/

/-- The value of a token of this kind. -/
def value : Kind → String → String
  | .atom => r.atom
  | .var => r.var
  | .string => r.string
  | .char | .float | .integer | .name | .punct => id

def token (t : Token) : Token := { t with text := r.value t.kind t.text }

def literal : Literal → Literal
  | .atom name => .atom (r.atom name)
  | .string value => .string (r.string value)
  | .integer value => .integer value
  | .float value => .float value
  | .char spelling => .char spelling
  | .nil => .nil

def funName (f : FunName) : FunName := ⟨r.atom f.name, f.arity⟩

/-- The change of a tree. Lists stay lists with the same tails. -/
def transform : Transform where
  literal := r.literal
  var := r.var
  binders := List.map r.var
  funRef := r.funName
  defined := r.funName
  primop := r.atom

abbrev const : Const → Const := r.transform.const

abbrev ann {α : Type} (f : α → α) : Ann α → Ann α := r.transform.ann f

abbrev expr : Expr → Expr := r.transform.expr

abbrev definition : Definition → Definition := r.transform.definition

abbrev clause : Clause → Clause := r.transform.clause

abbrev segment : Segment → Segment := r.transform.segment

abbrev mapPair : MapPair → MapPair := r.transform.mapPair

abbrev pattern : Pattern → Pattern := r.transform.pattern

abbrev patternSegment : PatternSegment → PatternSegment := r.transform.patternSegment

abbrev patternPair : PatternPair → PatternPair := r.transform.patternPair

def unit (m : Module) : Module :=
  ⟨r.atom m.name, m.exports.map r.funName, m.attributes.map (Prod.map r.atom r.const),
    m.definitions.map (r.ann r.definition)⟩

@[simp] theorem transform_literal : r.transform.literal = r.literal := rfl

@[simp] theorem transform_var : r.transform.var = r.var := rfl

@[simp] theorem transform_binders : r.transform.binders = List.map r.var := rfl

@[simp] theorem transform_funRef : r.transform.funRef = r.funName := rfl

@[simp] theorem transform_defined : r.transform.defined = r.funName := rfl

@[simp] theorem transform_primop : r.transform.primop = r.atom := rfl

@[simp] theorem transform_patterns : r.transform.patterns = id := rfl

@[simp] theorem transform_guard : r.transform.guard = id := rfl

@[simp] theorem transform_constCells : r.transform.constCells = fun _ => none := rfl

@[simp] theorem transform_patternCells : r.transform.patternCells = fun _ => none := rfl

@[simp] theorem transform_exprCells : r.transform.exprCells = fun _ => none := rfl

@[simp] theorem transform_notes (cs : List Const) : r.transform.notes cs = cs.map r.const :=
  Transform.consts_eq_map _ cs

theorem keepsNames : r.transform.KeepsNames := fun value => by cases value <;> rfl

theorem keepsShape : r.transform.KeepsShape where
  literal value := by cases value <;> rfl
  binders vars := by
    induction vars with
    | nil => rfl
    | cons v vars ih =>
      simp only [transform_binders, Outline.names, List.map_cons, Outline.depth, Outline.depthAll]
        at ih ⊢
      omega
  keepsAnnotations := rfl
  patterns := rfl
  guard := rfl
  constCells := rfl
  patternCells := rfl
  exprCells := rfl

end Renaming

/-! ## Calls -/

/-- A call without the description of its target. -/
def Call.undescribed : Call → Call
  | .unimplemented _ => .unimplemented ""
  | c => c

def Renaming.call (r : Renaming) : Call → Call
  | .static unit function arity => .static (r.atom unit) (r.atom function) arity
  | .dynModule unitVar function arity => .dynModule (r.var unitVar) (r.atom function) arity
  | .dynFunction unit functionVar arity => .dynFunction (r.atom unit) (r.var functionVar) arity
  | .dynAll unitVar functionVar arity => .dynAll (r.var unitVar) (r.var functionVar) arity
  | .unimplemented description => .unimplemented description

def Report.undescribed (r : Report) : Report := ⟨r.unit, r.calls.map Call.undescribed⟩

namespace Renaming

variable (r : Renaming)

def report (x : Report) : Report := ⟨r.atom x.unit, x.calls.map r.call⟩

/-- A call of something else is a call of the same kind. -/
theorem call_target (x : Target) :
    (r.transform.target x).call.undescribed = (r.call x.call).undescribed := by
  cases h : x.isPlain with
  | true =>
    obtain ⟨unit, function, arity⟩ := x
    obtain ⟨hunit, hfunction⟩ := Bool.and_eq_true_iff.1 h
    obtain ⟨a, rfl⟩ | ⟨v, rfl⟩ := Expr.of_isName hunit <;>
      obtain ⟨b, rfl⟩ | ⟨w, rfl⟩ := Expr.of_isName hfunction <;> rfl
  | false =>
    have h' : (r.transform.target x).isPlain = false := by rw [r.keepsNames.isPlain_target, h]
    rw [Target.call_of_not_isPlain h, Target.call_of_not_isPlain h']
    rfl

theorem targets_unit (m : Module) : (r.unit m).targets = m.targets.map r.transform.target := by
  rw [Module.targets, unit, ← Transform.annDefinitions_eq_map]
  exact Transform.annDefinitions_targets rfl m.definitions

/-- The report of a module in which names are changed. There is none just if the module has none. -/
theorem report_unit (limit : Nat) (m : Module) :
    ((r.unit m).report limit).map Report.undescribed =
      (m.report limit).map fun x => (r.report x).undescribed := by
  have hfits : (r.unit m).targets.all (·.fits limit) = m.targets.all (·.fits limit) := by
    rw [targets_unit, List.all_map]
    exact congrArg m.targets.all (funext (r.keepsShape.fits_target r.keepsNames limit))
  rw [Module.report_eq, Module.report_eq, hfits, targets_unit]
  cases m.targets.all (·.fits limit) with
  | false => rfl
  | true =>
    simp only [if_true, Except.map, Report.undescribed, report, List.map_map, unit,
      Except.ok.injEq, Report.mk.injEq, true_and]
    exact List.map_congr_left fun x _ => r.call_target x

end Renaming

end CallGraph
