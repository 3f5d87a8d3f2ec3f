import CallGraph.Core.Const

/-!
Expressions, patterns and modules of Core Erlang.
-/

namespace CallGraph

/-- What a pair in a map expression does: it adds a key, or changes the value of one that is there. -/
inductive MapOp where
  | put
  | update
deriving DecidableEq

def MapOp.symbol : MapOp → String
  | .put => "=>"
  | .update => ":="

mutual

inductive Expr where
  | var (name : String)
  | lit (value : Literal)
  | funRef (name : FunName)
  | lambda (params : List String) (body : Ann Expr)
  | apply (function : Ann Expr) (args : List (Ann Expr))
  /-- A call of a function of another module. -/
  | call (unit function : Ann Expr) (args : List (Ann Expr))
  | primop (name : String) (args : List (Ann Expr))
  | seq (first next : Ann Expr)
  | letIn (vars : List String) (value body : Ann Expr)
  | letRec (definitions : List (Ann Definition)) (body : Ann Expr)
  | caseOf (subject : Ann Expr) (clauses : List (Ann Clause))
  | receive (clauses : List (Ann Clause)) (timeout action : Ann Expr)
  | tryOf (body : Ann Expr) (vars : List String) (success : Ann Expr) (handlerVars : List String)
      (handler : Ann Expr)
  | catching (body : Ann Expr)
  | tuple (elements : List (Ann Expr))
  | list (elements : List (Ann Expr)) (tail : Option (Ann Expr))
  | binary (segments : List Segment)
  /-- With a base, the map that the pairs change. -/
  | map (pairs : List MapPair) (base : Option (Ann Expr))
  | values (elements : List (Ann Expr))

structure Definition where
  name : FunName
  function : Ann Expr

structure Clause where
  patterns : List Pattern
  guard : Ann Expr
  body : Ann Expr

structure Segment where
  value : Ann Expr
  size : Ann Expr
  unit : Ann Expr
  type : Ann Expr
  flags : Ann Expr

structure MapPair where
  key : Ann Expr
  value : Ann Expr
  op : MapOp

inductive Pattern where
  | var (name : String)
  | lit (value : Literal)
  | tuple (elements : List Pattern)
  | list (elements : List Pattern) (tail : Option Pattern)
  | binary (segments : List PatternSegment)
  | map (pairs : List PatternPair)
  | alias (name : String) (pattern : Pattern)

structure PatternSegment where
  pattern : Pattern
  size : Ann Expr
  unit : Ann Expr
  type : Ann Expr
  flags : Ann Expr

structure PatternPair where
  key : Ann Expr
  pattern : Pattern

end

structure Module where
  name : String
  exports : List FunName
  attributes : List (String × Const)
  definitions : List (Ann Definition)

end CallGraph
