import CallGraph.Core.Expr
import CallGraph.Number.Shortest
import CallGraph.Proofs.Spelling

/-!
Printing. A tree is laid out as words, and the words are written with blanks between them. Every
expression stands in parentheses with its annotations, so that nothing in front of it or after it
is taken for a part of it. Tails of other lists are in parentheses too.
-/

namespace CallGraph

open Word (mark keyword)

namespace Word

/-- The rows with commas between them. -/
def commas : List (List Word) → List Word
  | [] => []
  | [ws] => ws
  | ws :: vs :: rows => ws ++ mark "," :: commas (vs :: rows)

/-- The rows with commas between them, and the mark that closes them. -/
def closedBy (close : String) (rows : List (List Word)) : List Word := commas rows ++ [mark close]

/-- The rows in parentheses, with commas between them. -/
def arguments (rows : List (List Word)) : List Word := mark "(" :: closedBy ")" rows

/-- Variables with commas between them, and the mark that closes them. -/
def names (close : String) (vars : List String) : List Word :=
  closedBy close (vars.map fun name => [⟨.var, name⟩])

end Word

def Literal.words : Literal → List Word
  | .atom name => [⟨.atom, name⟩]
  | .integer n => [.integer n]
  | .float x => [⟨.float, x.text⟩]
  | .char spelling => [⟨.char, spelling⟩]
  | .string value => [⟨.string, value⟩]
  | .nil => [mark "[", mark "]"]

def FunName.words (f : FunName) : List Word := [⟨.atom, f.name⟩, mark "/", .integer f.arity]

mutual

def Const.words : Const → List Word
  | .lit value => value.words
  | .tuple elements => mark "\x7b" :: Word.closedBy "\x7d" (Const.rows elements)
  | .list elements tail =>
    mark "[" :: Word.commas (Const.rows elements) ++ Const.tailWords tail ++ [mark "]"]
  | .binary segments => mark "#\x7b" :: Word.closedBy "\x7d#" (Const.segmentRows segments)
  | .map pairs => mark "~\x7b" :: Word.closedBy "\x7d~" (Const.pairRows pairs)

def Const.rows : List Const → List (List Word)
  | [] => []
  | c :: cs => c.words :: Const.rows cs

def Const.tailWords : Option Const → List Word
  | none => []
  | some c => mark "|" :: mark "(" :: c.words ++ [mark ")"]

def Const.segmentRows : List (List Const) → List (List Word)
  | [] => []
  | [] :: segments => [] :: Const.segmentRows segments
  | (value :: modifiers) :: segments =>
    (mark "#<" :: value.words ++ mark ">" :: Word.arguments (Const.rows modifiers)) ::
      Const.segmentRows segments

def Const.pairRows : List (Const × Const) → List (List Word)
  | [] => []
  | (key, value) :: pairs => (key.words ++ mark "=>" :: value.words) :: Const.pairRows pairs

end

/-- The end of a parenthesis, with the annotations before it. -/
def Word.closing (annotations : List Const) : List Word :=
  mark "-|" :: mark "[" :: Word.closedBy "]" (Const.rows annotations) ++ [mark ")"]

/-- The words in parentheses, with the annotations. -/
def Word.annotated (ws : List Word) (annotations : List Const) : List Word :=
  mark "(" :: (ws ++ Word.closing annotations)

mutual

def Expr.words : Expr → List Word
  | .var name => [⟨.var, name⟩]
  | .lit value => value.words
  | .funRef name => name.words
  | .lambda params body =>
    keyword "fun" :: mark "(" :: Word.names ")" params ++ mark "->" :: Expr.annWords body
  | .apply function args => keyword "apply" :: Expr.annWords function ++ Word.arguments (Expr.rows args)
  | .call unit function args =>
    keyword "call" :: Expr.annWords unit ++ mark ":" :: Expr.annWords function ++
      Word.arguments (Expr.rows args)
  | .primop name args => keyword "primop" :: ⟨.atom, name⟩ :: Word.arguments (Expr.rows args)
  | .seq first next => keyword "do" :: Expr.annWords first ++ Expr.annWords next
  | .letIn vars value body =>
    keyword "let" :: mark "<" :: Word.names ">" vars ++ mark "=" :: Expr.annWords value ++
      keyword "in" :: Expr.annWords body
  | .letRec definitions body =>
    keyword "letrec" :: Definition.words "in" definitions ++ Expr.annWords body
  | .caseOf subject clauses =>
    keyword "case" :: Expr.annWords subject ++ keyword "of" :: Clause.words "end" clauses
  | .receive clauses timeout action =>
    keyword "receive" :: Clause.words "after" clauses ++ Expr.annWords timeout ++
      mark "->" :: Expr.annWords action
  | .tryOf body vars success handlerVars handler =>
    keyword "try" :: Expr.annWords body ++
      keyword "of" :: mark "<" :: Word.names ">" vars ++ mark "->" :: Expr.annWords success ++
      keyword "catch" :: mark "<" :: Word.names ">" handlerVars ++
      mark "->" :: Expr.annWords handler
  | .catching body => keyword "catch" :: Expr.annWords body
  | .tuple elements => mark "\x7b" :: Word.closedBy "\x7d" (Expr.rows elements)
  | .list elements tail =>
    mark "[" :: Word.commas (Expr.rows elements) ++ Expr.tailWords tail ++ [mark "]"]
  | .binary segments => mark "#\x7b" :: Word.closedBy "\x7d#" (Segment.rows segments)
  | .map pairs base =>
    mark "~\x7b" :: Word.commas (MapPair.rows pairs) ++ Expr.tailWords base ++ [mark "\x7d~"]
  | .values elements => mark "<" :: Word.closedBy ">" (Expr.rows elements)

def Expr.annWords : Ann Expr → List Word
  | ⟨e, annotations⟩ => Word.annotated e.words annotations

def Expr.rows : List (Ann Expr) → List (List Word)
  | [] => []
  | e :: es => Expr.annWords e :: Expr.rows es

def Expr.tailWords : Option (Ann Expr) → List Word
  | none => []
  | some e => mark "|" :: Expr.annWords e

/-- The definitions one after the other, and the keyword that ends them. -/
def Definition.words (stop : String) : List (Ann Definition) → List Word
  | [] => [keyword stop]
  | ⟨⟨name, function⟩, annotations⟩ :: ds =>
    (Word.annotated name.words annotations ++ mark "=" :: Expr.annWords function) ++
      Definition.words stop ds

/-- The clauses one after the other, and the keyword that ends them. -/
def Clause.words (stop : String) : List (Ann Clause) → List Word
  | [] => [keyword stop]
  | ⟨⟨patterns, guard, body⟩, annotations⟩ :: cs =>
    Word.annotated
      (mark "<" :: Word.closedBy ">" (Pattern.rows patterns) ++
        keyword "when" :: Expr.annWords guard ++ mark "->" :: Expr.annWords body)
      annotations ++ Clause.words stop cs

def Segment.rows : List Segment → List (List Word)
  | [] => []
  | ⟨value, size, unit, type, flags⟩ :: segments =>
    (mark "#<" :: Expr.annWords value ++ mark ">" :: Word.arguments
      [Expr.annWords size, Expr.annWords unit, Expr.annWords type, Expr.annWords flags]) ::
      Segment.rows segments

def MapPair.rows : List MapPair → List (List Word)
  | [] => []
  | ⟨key, value, op⟩ :: pairs =>
    (Expr.annWords key ++ mark op.symbol :: Expr.annWords value) :: MapPair.rows pairs

def Pattern.words : Pattern → List Word
  | .var name => [⟨.var, name⟩]
  | .lit value => value.words
  | .tuple elements => mark "\x7b" :: Word.closedBy "\x7d" (Pattern.rows elements)
  | .list elements tail =>
    mark "[" :: Word.commas (Pattern.rows elements) ++ Pattern.tailWords tail ++ [mark "]"]
  | .binary segments => mark "#\x7b" :: Word.closedBy "\x7d#" (PatternSegment.rows segments)
  | .map pairs => mark "~\x7b" :: Word.closedBy "\x7d~" (PatternPair.rows pairs)
  | .alias name pattern => ⟨.var, name⟩ :: mark "=" :: pattern.words

def Pattern.rows : List Pattern → List (List Word)
  | [] => []
  | p :: ps => p.words :: Pattern.rows ps

def Pattern.tailWords : Option Pattern → List Word
  | none => []
  | some p => mark "|" :: mark "(" :: p.words ++ [mark ")"]

def PatternSegment.rows : List PatternSegment → List (List Word)
  | [] => []
  | ⟨pattern, size, unit, type, flags⟩ :: segments =>
    (mark "#<" :: pattern.words ++ mark ">" :: Word.arguments
      [Expr.annWords size, Expr.annWords unit, Expr.annWords type, Expr.annWords flags]) ::
      PatternSegment.rows segments

def PatternPair.rows : List PatternPair → List (List Word)
  | [] => []
  | ⟨key, pattern⟩ :: pairs =>
    (Expr.annWords key ++ mark ":=" :: pattern.words) :: PatternPair.rows pairs

end

def Module.attributeWords (a : String × Const) : List Word :=
  ⟨.atom, a.1⟩ :: mark "=" :: a.2.words

def Module.words (m : Module) : List Word :=
  keyword "module" :: ⟨.atom, m.name⟩ :: mark "[" ::
    Word.closedBy "]" (m.exports.map FunName.words) ++
    keyword "attributes" :: mark "[" ::
    Word.closedBy "]" (m.attributes.map Module.attributeWords) ++
    Definition.words "end" m.definitions

/-- The words of a module with its annotations. -/
def Module.annWords (m : Ann Module) : List Word := Word.annotated m.node.words m.annotations

/-- The text of an expression. -/
def Expr.print (e : Ann Expr) : String := String.ofList (Word.written (Expr.annWords e))

/-- The text of a module. -/
def Module.print (m : Ann Module) : String := String.ofList (Word.written (Module.annWords m))

/-! ## Well-formed trees -/

/-- Numbers with a point are left out. -/
def Literal.WellFormed : Literal → Prop
  | .atom _ | .string _ | .nil => True
  | .integer n => Numeral.Short n
  | .float _ => False
  | .char spelling => IsCharacter spelling

def FunName.WellFormed (f : FunName) : Prop := Numeral.Short f.arity

mutual

/-- Lists have elements, and a segment of a bit string has a value. -/
def Const.WellFormed : Const → Prop
  | .lit value => value.WellFormed
  | .tuple elements => Const.AllWellFormed elements
  | .list elements tail => elements ≠ [] ∧ Const.AllWellFormed elements ∧ Const.TailWellFormed tail
  | .binary segments => Const.SegmentsWellFormed segments
  | .map pairs => Const.PairsWellFormed pairs

def Const.AllWellFormed : List Const → Prop
  | [] => True
  | c :: cs => c.WellFormed ∧ Const.AllWellFormed cs

def Const.TailWellFormed : Option Const → Prop
  | none => True
  | some c => c.WellFormed

def Const.SegmentsWellFormed : List (List Const) → Prop
  | [] => True
  | cs :: segments => cs ≠ [] ∧ Const.AllWellFormed cs ∧ Const.SegmentsWellFormed segments

def Const.PairsWellFormed : List (Const × Const) → Prop
  | [] => True
  | (key, value) :: pairs => key.WellFormed ∧ value.WellFormed ∧ Const.PairsWellFormed pairs

end

/-- What is defined is a function. -/
def Expr.IsFunction : Expr → Prop
  | .lambda .. => True
  | _ => False

mutual

/-- Lists have elements, variables are spelled as variables, and definitions define functions. -/
def Expr.WellFormed : Expr → Prop
  | .var name => IsVariable name
  | .lit value => value.WellFormed
  | .funRef name => name.WellFormed
  | .lambda params body => (∀ v ∈ params, IsVariable v) ∧ Expr.AnnWellFormed body
  | .apply function args => Expr.AnnWellFormed function ∧ Expr.AllWellFormed args
  | .call unit function args =>
    Expr.AnnWellFormed unit ∧ Expr.AnnWellFormed function ∧ Expr.AllWellFormed args
  | .primop _ args => Expr.AllWellFormed args
  | .seq first next => Expr.AnnWellFormed first ∧ Expr.AnnWellFormed next
  | .letIn vars value body =>
    (∀ v ∈ vars, IsVariable v) ∧ Expr.AnnWellFormed value ∧ Expr.AnnWellFormed body
  | .letRec definitions body => Definition.AllWellFormed definitions ∧ Expr.AnnWellFormed body
  | .caseOf subject clauses => Expr.AnnWellFormed subject ∧ Clause.AllWellFormed clauses
  | .receive clauses timeout action =>
    Clause.AllWellFormed clauses ∧ Expr.AnnWellFormed timeout ∧ Expr.AnnWellFormed action
  | .tryOf body vars success handlerVars handler =>
    Expr.AnnWellFormed body ∧ (∀ v ∈ vars, IsVariable v) ∧ Expr.AnnWellFormed success ∧
      (∀ v ∈ handlerVars, IsVariable v) ∧ Expr.AnnWellFormed handler
  | .catching body => Expr.AnnWellFormed body
  | .tuple elements | .values elements => Expr.AllWellFormed elements
  | .list elements tail => elements ≠ [] ∧ Expr.AllWellFormed elements ∧ Expr.TailWellFormed tail
  | .binary segments => Segment.AllWellFormed segments
  | .map pairs base => MapPair.AllWellFormed pairs ∧ Expr.TailWellFormed base

def Expr.AnnWellFormed : Ann Expr → Prop
  | ⟨e, annotations⟩ => e.WellFormed ∧ Const.AllWellFormed annotations

def Expr.AllWellFormed : List (Ann Expr) → Prop
  | [] => True
  | e :: es => Expr.AnnWellFormed e ∧ Expr.AllWellFormed es

def Expr.TailWellFormed : Option (Ann Expr) → Prop
  | none => True
  | some e => Expr.AnnWellFormed e

def Definition.AllWellFormed : List (Ann Definition) → Prop
  | [] => True
  | ⟨⟨name, function⟩, annotations⟩ :: ds =>
    name.WellFormed ∧ function.node.IsFunction ∧ Expr.AnnWellFormed function ∧
      Const.AllWellFormed annotations ∧ Definition.AllWellFormed ds

def Clause.AllWellFormed : List (Ann Clause) → Prop
  | [] => True
  | ⟨⟨patterns, guard, body⟩, annotations⟩ :: cs =>
    Pattern.AllWellFormed patterns ∧ Expr.AnnWellFormed guard ∧ Expr.AnnWellFormed body ∧
      Const.AllWellFormed annotations ∧ Clause.AllWellFormed cs

def Segment.AllWellFormed : List Segment → Prop
  | [] => True
  | ⟨value, size, unit, type, flags⟩ :: segments =>
    Expr.AnnWellFormed value ∧ Expr.AnnWellFormed size ∧ Expr.AnnWellFormed unit ∧
      Expr.AnnWellFormed type ∧ Expr.AnnWellFormed flags ∧ Segment.AllWellFormed segments

def MapPair.AllWellFormed : List MapPair → Prop
  | [] => True
  | ⟨key, value, _⟩ :: pairs =>
    Expr.AnnWellFormed key ∧ Expr.AnnWellFormed value ∧ MapPair.AllWellFormed pairs

def Pattern.WellFormed : Pattern → Prop
  | .var name => IsVariable name
  | .lit value => value.WellFormed
  | .tuple elements => Pattern.AllWellFormed elements
  | .list elements tail =>
    elements ≠ [] ∧ Pattern.AllWellFormed elements ∧ Pattern.TailWellFormed tail
  | .binary segments => PatternSegment.AllWellFormed segments
  | .map pairs => PatternPair.AllWellFormed pairs
  | .alias name pattern => IsVariable name ∧ pattern.WellFormed

def Pattern.AllWellFormed : List Pattern → Prop
  | [] => True
  | p :: ps => p.WellFormed ∧ Pattern.AllWellFormed ps

def Pattern.TailWellFormed : Option Pattern → Prop
  | none => True
  | some p => p.WellFormed

def PatternSegment.AllWellFormed : List PatternSegment → Prop
  | [] => True
  | ⟨pattern, size, unit, type, flags⟩ :: segments =>
    pattern.WellFormed ∧ Expr.AnnWellFormed size ∧ Expr.AnnWellFormed unit ∧
      Expr.AnnWellFormed type ∧ Expr.AnnWellFormed flags ∧ PatternSegment.AllWellFormed segments

def PatternPair.AllWellFormed : List PatternPair → Prop
  | [] => True
  | ⟨key, pattern⟩ :: pairs =>
    Expr.AnnWellFormed key ∧ pattern.WellFormed ∧ PatternPair.AllWellFormed pairs

end

def Module.WellFormed (m : Module) : Prop :=
  (∀ f ∈ m.exports, f.WellFormed) ∧ (∀ a ∈ m.attributes, a.2.WellFormed) ∧
    Definition.AllWellFormed m.definitions

def Module.AnnWellFormed (m : Ann Module) : Prop :=
  m.node.WellFormed ∧ Const.AllWellFormed m.annotations

end CallGraph
