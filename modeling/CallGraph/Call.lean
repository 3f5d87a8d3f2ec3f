import CallGraph.Core.Outline
import CallGraph.Json

/-!
Calls from one module to another, by what is known of the module and of the function.
-/

namespace CallGraph

inductive Call where
  | static (unit function : String) (arity : Int)
  | dynModule (unitVar function : String) (arity : Int)
  | dynFunction (unit functionVar : String) (arity : Int)
  | dynAll (unitVar functionVar : String) (arity : Int)
  /-- Module or function is some other expression. Both are described. -/
  | unimplemented (description : String)
deriving DecidableEq

namespace Call

def kinds : List String := ["static", "dyn_module", "dyn_function", "dyn_all", "unimplemented"]

def kind : Call → String
  | .static .. => "static"
  | .dynModule .. => "dyn_module"
  | .dynFunction .. => "dyn_function"
  | .dynAll .. => "dyn_all"
  | .unimplemented .. => "unimplemented"

def literalModule : Call → Option String
  | .static unit _ _ | .dynFunction unit _ _ => some unit
  | .dynModule .. | .dynAll .. | .unimplemented .. => none

/-- The module, or the variable that holds it. -/
def targetLabel : Call → Option String
  | .static unit _ _ | .dynFunction unit _ _ => some unit
  | .dynModule unitVar _ _ | .dynAll unitVar _ _ => some unitVar
  | .unimplemented .. => none

def isDotted : Call → Bool
  | .dynFunction .. | .dynAll .. => true
  | .static .. | .dynModule .. | .unimplemented .. => false

def text : Call → String
  | .static unit function arity
  | .dynModule unit function arity
  | .dynFunction unit function arity
  | .dynAll unit function arity => unit ++ ":" ++ function ++ "/" ++ toString arity
  | .unimplemented description => "<unhandled " ++ description ++ ">"

def fields : Call → List (String × Json)
  | .static unit function arity =>
    [("target_module", .text unit), ("target_function", .text function), ("arity", .integer arity)]
  | .dynModule unit function arity =>
    [("target_module_expr", .text unit), ("target_function", .text function),
      ("arity", .integer arity)]
  | .dynFunction unit function arity =>
    [("target_module", .text unit), ("target_function_expr", .text function),
      ("arity", .integer arity)]
  | .dynAll unit function arity =>
    [("target_module_expr", .text unit), ("target_function_expr", .text function),
      ("arity", .integer arity)]
  | .unimplemented description => [("description", .text description)]

def toJson (c : Call) : Json := .object (("kind", .text c.kind) :: c.fields)

end Call

/-- A module and the calls that it makes, in the order of its text. -/
structure Report where
  unit : String
  calls : List Call
deriving DecidableEq

end CallGraph
