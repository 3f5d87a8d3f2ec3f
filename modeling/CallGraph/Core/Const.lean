import CallGraph.Number.Binary64

/-!
Literals and constants of Core Erlang. Constants stand in attributes and in annotations.
-/

namespace CallGraph

inductive Literal where
  | atom (name : String)
  | integer (value : Int)
  | float (value : Binary64)
  /-- A character is kept as it is spelled, with its dollar sign. -/
  | char (spelling : String)
  | string (value : String)
  | nil
deriving DecidableEq

inductive Const where
  | lit (value : Literal)
  | tuple (elements : List Const)
  | list (elements : List Const) (tail : Option Const)
  /-- A bit string. A segment is its value and then its modifiers. -/
  | binary (segments : List (List Const))
  | map (pairs : List (Const × Const))

structure Ann (α : Type) where
  node : α
  annotations : List Const

def Ann.plain {α : Type} (node : α) : Ann α := ⟨node, []⟩

structure FunName where
  name : String
  arity : Int
deriving DecidableEq

def FunName.text (f : FunName) : String := s!"{f.name}/{f.arity}"

end CallGraph
