import CallGraph.Core.Expr
import CallGraph.Number.Shortest
import CallGraph.Text.Quoted

/-!
Outlines: parts of programs as labelled trees, and the texts that describe them. A node of an
outline has a label and named fields. The text of an outline is made by recursion, so that one that
is nested too deeply for the stack has none.
-/

namespace CallGraph

inductive Outline where
  | absent
  | text (value : String)
  | integer (value : Int)
  | float (value : Binary64)
  | list (items : List Outline)
  | tuple (items : List Outline)
  | node (label : String) (fields : List (String × Outline))

namespace Outline

def joined (items : List String) : String := String.intercalate ", " items

mutual

def describe : Outline → String
  | .absent => "None"
  | .text s => Text.quoted s
  | .integer n => toString n
  | .float x => x.text
  | .list items => "[" ++ joined (describeAll items) ++ "]"
  -- A tuple of one item keeps a comma.
  | .tuple [item] => "(" ++ describe item ++ ",)"
  | .tuple items => "(" ++ joined (describeAll items) ++ ")"
  | .node label fields => label ++ "(" ++ joined (describeFields fields) ++ ")"

def describeAll : List Outline → List String
  | [] => []
  | item :: items => describe item :: describeAll items

def describeFields : List (String × Outline) → List String
  | [] => []
  | (name, value) :: fields => (name ++ "=" ++ describe value) :: describeFields fields

end

mutual

/-- How many calls are open at once while the text of an outline is made: one for a value or a list,
three for a node. -/
def depth : Outline → Nat
  | .absent | .text _ | .integer _ | .float _ => 1
  | .list items | .tuple items => depthAll items + 1
  | .node _ fields => depthFields fields + 3

def depthAll : List Outline → Nat
  | [] => 0
  | item :: items => max (depth item) (depthAll items)

def depthFields : List (String × Outline) → Nat
  | [] => 0
  | (_, value) :: fields => max (depth value) (depthFields fields)

end

/-- The text of an outline, if it is made with at most `limit` calls open at once. -/
def dump (limit : Nat) (o : Outline) : Option String :=
  if o.depth ≤ limit then some o.describe else none

def names (vars : List String) : Outline := .list (vars.map .text)

end Outline

def Literal.outline : Literal → Outline
  | .atom name => .node "Atom" [("name", .text name)]
  | .integer n => .node "Integer" [("value", .integer n)]
  | .float x => .node "Float" [("value", .float x)]
  | .char s => .node "Char" [("value", .text s)]
  | .string s => .node "String" [("value", .text s)]
  | .nil => .node "Nil" []

mutual

def Const.outline : Const → Outline
  | .lit value => value.outline
  | .tuple elements => .node "ConstTuple" [("elements", .list (Const.outlines elements))]
  | .list elements tail =>
    .node "ConstList" [("elements", .list (Const.outlines elements)), ("tail", Const.outline? tail)]
  | .binary segments => .node "ConstBinary" [("segments", .list (Const.segmentOutlines segments))]
  | .map pairs => .node "ConstMap" [("pairs", .list (Const.pairOutlines pairs))]

def Const.outlines : List Const → List Outline
  | [] => []
  | c :: cs => c.outline :: Const.outlines cs

def Const.outline? : Option Const → Outline
  | none => .absent
  | some c => c.outline

def Const.segmentOutlines : List (List Const) → List Outline
  | [] => []
  | cs :: segments => .tuple (Const.outlines cs) :: Const.segmentOutlines segments

def Const.pairOutlines : List (Const × Const) → List Outline
  | [] => []
  | (k, v) :: pairs => .tuple [k.outline, v.outline] :: Const.pairOutlines pairs

end

def Outline.annotated (node : Outline) (annotations : List Const) : Outline :=
  .node "Ann" [("node", node), ("annotations", .list (Const.outlines annotations))]

def FunName.outline (f : FunName) : Outline :=
  .node "FunName" [("name", .text f.name), ("arity", .integer f.arity)]

mutual

def Expr.outline : Expr → Outline
  | .var name => .node "Var" [("name", .text name)]
  | .lit value => .node "Lit" [("literal", value.outline)]
  | .funRef name => .node "FunRef" [("name", name.outline)]
  | .lambda params body => .node "Fun" [("params", Outline.names params), ("body", Expr.annOutline body)]
  | .apply function args =>
    .node "App" [("function", Expr.annOutline function), ("args", .list (Expr.annOutlines args))]
  | .call unit function args =>
    .node "ModCall" [("module", Expr.annOutline unit), ("function", Expr.annOutline function),
      ("args", .list (Expr.annOutlines args))]
  | .primop name args =>
    .node "PrimOp" [("name", .text name), ("args", .list (Expr.annOutlines args))]
  | .seq first next =>
    .node "Seq" [("first", Expr.annOutline first), ("then", Expr.annOutline next)]
  | .letIn vars value body =>
    .node "Let" [("variables", Outline.names vars), ("value", Expr.annOutline value),
      ("body", Expr.annOutline body)]
  | .letRec definitions body =>
    .node "LetRec" [("fundefs", .list (Definition.annOutlines definitions)),
      ("body", Expr.annOutline body)]
  | .caseOf subject clauses =>
    .node "Case" [("subject", Expr.annOutline subject),
      ("clauses", .list (Clause.annOutlines clauses))]
  | .receive clauses timeout action =>
    .node "Receive" [("clauses", .list (Clause.annOutlines clauses)),
      ("timeout", Expr.annOutline timeout), ("action", Expr.annOutline action)]
  | .tryOf body vars success handlerVars handler =>
    .node "Try" [("body", Expr.annOutline body), ("success_vars", Outline.names vars),
      ("success", Expr.annOutline success), ("handler_vars", Outline.names handlerVars),
      ("handler", Expr.annOutline handler)]
  | .catching body => .node "Catch" [("body", Expr.annOutline body)]
  | .tuple elements => .node "Tuple" [("elements", .list (Expr.annOutlines elements))]
  | .list elements tail =>
    .node "List" [("elements", .list (Expr.annOutlines elements)), ("tail", Expr.annOutline? tail)]
  | .binary segments => .node "Binary" [("segments", .list (Segment.outlines segments))]
  | .map pairs base =>
    .node "Map" [("pairs", .list (MapPair.outlines pairs)), ("base", Expr.annOutline? base)]
  | .values elements => .node "Values" [("elements", .list (Expr.annOutlines elements))]

def Expr.annOutline : Ann Expr → Outline
  | ⟨e, annotations⟩ => .annotated e.outline annotations

def Expr.annOutlines : List (Ann Expr) → List Outline
  | [] => []
  | e :: es => Expr.annOutline e :: Expr.annOutlines es

def Expr.annOutline? : Option (Ann Expr) → Outline
  | none => .absent
  | some e => Expr.annOutline e

def Definition.outline : Definition → Outline
  | ⟨name, function⟩ =>
    .node "FunDef" [("name", name.outline), ("fun", Expr.annOutline function)]

def Definition.annOutlines : List (Ann Definition) → List Outline
  | [] => []
  | ⟨d, annotations⟩ :: ds => .annotated d.outline annotations :: Definition.annOutlines ds

def Clause.outline : Clause → Outline
  | ⟨patterns, guard, body⟩ =>
    .node "Alt" [("patterns", .list (Pattern.outlines patterns)), ("guard", Expr.annOutline guard),
      ("body", Expr.annOutline body)]

def Clause.annOutlines : List (Ann Clause) → List Outline
  | [] => []
  | ⟨c, annotations⟩ :: cs => .annotated c.outline annotations :: Clause.annOutlines cs

def Segment.outlines : List Segment → List Outline
  | [] => []
  | ⟨value, size, unit, type, flags⟩ :: segments =>
    .node "BitSegment" [("value", Expr.annOutline value), ("size", Expr.annOutline size),
      ("unit", Expr.annOutline unit), ("type", Expr.annOutline type),
      ("flags", Expr.annOutline flags)] :: Segment.outlines segments

def MapPair.outlines : List MapPair → List Outline
  | [] => []
  | ⟨key, value, op⟩ :: pairs =>
    .node "MapPair" [("key", Expr.annOutline key), ("value", Expr.annOutline value),
      ("op", .text op.symbol)] :: MapPair.outlines pairs

def Pattern.outline : Pattern → Outline
  | .var name => .node "PVar" [("name", .text name)]
  | .lit value => .node "PLit" [("literal", value.outline)]
  | .tuple elements => .node "PTuple" [("elements", .list (Pattern.outlines elements))]
  | .list elements tail =>
    .node "PList" [("elements", .list (Pattern.outlines elements)), ("tail", Pattern.outline? tail)]
  | .binary segments => .node "PBinary" [("segments", .list (PatternSegment.outlines segments))]
  | .map pairs => .node "PMap" [("pairs", .list (PatternPair.outlines pairs))]
  | .alias name pattern =>
    .node "PAlias" [("var", .node "PVar" [("name", .text name)]), ("pattern", pattern.outline)]

def Pattern.outlines : List Pattern → List Outline
  | [] => []
  | p :: ps => p.outline :: Pattern.outlines ps

def Pattern.outline? : Option Pattern → Outline
  | none => .absent
  | some p => p.outline

def PatternSegment.outlines : List PatternSegment → List Outline
  | [] => []
  | ⟨pattern, size, unit, type, flags⟩ :: segments =>
    .node "PBitSegment" [("pattern", pattern.outline), ("size", Expr.annOutline size),
      ("unit", Expr.annOutline unit), ("type", Expr.annOutline type),
      ("flags", Expr.annOutline flags)] :: PatternSegment.outlines segments

def PatternPair.outlines : List PatternPair → List Outline
  | [] => []
  | ⟨key, pattern⟩ :: pairs =>
    .node "PMapPair" [("key", Expr.annOutline key), ("pattern", pattern.outline)] ::
      PatternPair.outlines pairs

end

def Module.outline (m : Module) : Outline :=
  .node "Module" [("name", (Literal.atom m.name).outline),
    ("exports", .list (m.exports.map FunName.outline)),
    ("attributes", .list (m.attributes.map fun (key, value) =>
      .tuple [(Literal.atom key).outline, value.outline])),
    ("fundefs", .list (Definition.annOutlines m.definitions))]

end CallGraph
