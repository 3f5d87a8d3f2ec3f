import CallGraph.Core.Expr
import CallGraph.Core.Parser.Basic

/-!
The grammar of Core Erlang. The parsers of one level of nesting are made from those of the level
below it; at level zero the text is nested too deeply. What is read in a loop does not nest.
-/

namespace CallGraph

/-- The parsers of everything that may be annotated, for one level of nesting. -/
structure Level where
  /-- The greatest number of digits of an integer. -/
  digits : Nat
  const : Parser (Ann Const)
  atom : Parser (Ann String)
  var : Parser (Ann String)
  funName : Parser (Ann FunName)
  pattern : Parser (Ann Pattern)
  expr : Parser (Ann Expr)
  unit : Parser (Ann Module)

namespace Level

open CallGraph.Parser

variable {α : Type}

/-! ## Constants -/

def constant (l : Level) : Parser Const := do return (← l.const).node

def annotations (l : Level) : Parser (List Const) :=
  onSymbol [("-|", do expect "["; sequence l.constant "]")] (pure [])

def closing (l : Level) : Parser (List Const) := do
  let more ← l.annotations
  expect ")"
  return more

/-- A part on its own or in parentheses. Annotations of inner parentheses come before those of
outer ones. -/
def annotated (l : Level) (inner : Parser (Ann α)) (bare : Parser α) : Parser (Ann α) :=
  onSymbol [("(", do
    let x ← inner
    let more ← l.closing
    return ⟨x.node, x.annotations ++ more⟩)] (Ann.plain <$> bare)

def segment {β : Type} (value : Parser α) (modifier : Parser β) : Parser (α × List β) := do
  expect "#<"
  let x ← value
  expect ">"
  expect "("
  let ms ← sequence modifier ")"
  return (x, ms)

/-- A segment with the four modifiers that it has to have. -/
def fullSegment {β γ : Type} (value : Parser α) (modifier : Parser β)
    (make : α → β → β → β → β → γ) : Parser γ := do
  let (x, modifiers) ← segment value modifier
  match modifiers with
  | [size, unit, type, flags] => return make x size unit type flags
  | _ => fail .modifiers

def constSegment (l : Level) : Parser (List Const) := do
  let (value, modifiers) ← segment l.constant l.constant
  return value :: modifiers

def mapOp : Parser MapOp :=
  onSymbol [("=>", pure .put), (":=", pure .update)] (fail .mapOp)

def constPair (l : Level) : Parser (Const × Const) := do
  let key ← l.constant
  let _ ← mapOp
  return (key, ← l.constant)

/-- What follows an open bracket: the empty list, or elements and perhaps a tail. -/
def bracketed {β : Type} (item : Parser α) (nil : β) (list : List α → Option α → β) : Parser β :=
  onSymbol [("]", pure nil)] do
    let (elements, tail) ← consChain item
    return list elements tail

/-- What follows each opening bracket of a constant. -/
def constCases (l : Level) : List (String × Parser Const) := [
  ("\x7b", .tuple <$> sequence l.constant "\x7d"),
  ("[", bracketed l.constant (.lit .nil) .list),
  ("#\x7b", .binary <$> sequence l.constSegment "\x7d#"),
  ("~\x7b", .map <$> sequence l.constPair "\x7d~")]

def bareConst (l : Level) : Parser Const := do
  match ← literal? l.digits with
  | some value => return .lit value
  | none => onSymbol l.constCases (fail .constant)

/-! ## Names and variables -/

def bareFunName (l : Level) : Parser FunName := do
  let name ← expectKind .atom
  expect "/"
  let numeral ← expectKind .integer
  return ⟨name, ← converted (Numeral.integer l.digits numeral)⟩

def variableName (l : Level) : Parser String := do return (← l.var).node

def varList (l : Level) : Parser (List String) :=
  onSymbol [("<", sequence l.variableName ">")] do return [← l.variableName]

/-! ## Patterns -/

def plainPattern (l : Level) : Parser Pattern := do return (← l.pattern).node

def patterns (l : Level) : Parser (List Pattern) :=
  onSymbol [("<", sequence l.plainPattern ">")] do return [← l.plainPattern]

def patternSegment (l : Level) : Parser PatternSegment :=
  fullSegment l.plainPattern l.expr PatternSegment.mk

def patternPair (l : Level) : Parser PatternPair := do
  let key ← l.expr
  expect ":="
  return ⟨key, ← l.plainPattern⟩

def patternCases (l : Level) : List (String × Parser Pattern) := [
  ("[", bracketed l.plainPattern (.lit .nil) .list),
  ("\x7b", .tuple <$> sequence l.plainPattern "\x7d"),
  ("#\x7b", .binary <$> sequence l.patternSegment "\x7d#"),
  ("~\x7b", .map <$> sequence l.patternPair "\x7d~")]

def barePattern (l : Level) : Parser Pattern := do
  match ← var? with
  | some name => onSymbol [("=", .alias name <$> l.plainPattern)] (pure (.var name))
  | none =>
    match ← literal? l.digits with
    | some value => return .lit value
    | none => onSymbol l.patternCases (fail .pattern)

/-! ## Clauses and definitions -/

def clauseRest (l : Level) (patterns : List Pattern) : Parser Clause := do
  expect "when"
  let guard ← l.expr
  expect "->"
  return ⟨patterns, guard, ← l.expr⟩

/-- A clause. A parenthesis in front belongs to the clause if a guard follows the patterns after
it, otherwise to the first pattern. -/
def clause (l : Level) : Parser (Ann Clause) := do
  let start ← get
  if ← accept "(" then
    let ps ← l.patterns
    if ← ahead "when" then
      let c ← l.clauseRest ps
      return ⟨c, ← l.closing⟩
    else
      set start
      return .plain (← l.clauseRest (← l.patterns))
  else return .plain (← l.clauseRest (← l.patterns))

def clauses (l : Level) (stop : String) : Parser (List (Ann Clause)) := do
  let cs ← itemsBefore l.clause stop (← remaining)
  expect stop
  return cs

/-- The definition of a function. What is defined has to be a function. -/
def definition (l : Level) : Parser (Ann Definition) := do
  let name ← l.funName
  expect "="
  let function ← l.expr
  match function.node with
  | .lambda .. => return ⟨⟨name.node, function⟩, name.annotations⟩
  | _ => fail (.function name.node)

def definitions (l : Level) (stop : String) : Parser (List (Ann Definition)) := do
  let ds ← itemsBefore l.definition stop (← remaining)
  expect stop
  return ds

/-! ## Expressions -/

def exprSegment (l : Level) : Parser Segment := fullSegment l.expr l.expr Segment.mk

def mapPair (l : Level) : Parser MapPair := do
  let key ← l.expr
  let op ← mapOp
  return ⟨key, ← l.expr, op⟩

def mapPairs (l : Level) : Parser (List MapPair) := do
  if (← ahead "\x7d~") || (← ahead "|") then return []
  else items l.mapPair

def mapBody (l : Level) : Parser Expr := do
  let pairs ← l.mapPairs
  let base ← onSymbol [("|", some <$> l.expr)] (pure none)
  expect "\x7d~"
  return .map pairs base

def arguments (l : Level) : Parser (List (Ann Expr)) := do
  expect "("
  sequence l.expr ")"

/-- What stands before the rest of an expression: a binding, or a first step. -/
inductive ChainHead where
  | letIn (vars : List String) (value : Ann Expr)
  | step (first : Ann Expr)

def ChainHead.wrap (body : Ann Expr) : ChainHead → Ann Expr
  | .letIn vars value => .plain (.letIn vars value body)
  | .step first => .plain (.seq first body)

def binding (l : Level) : Parser ChainHead := do
  let vars ← l.varList
  expect "="
  let value ← l.expr
  expect "in"
  return .letIn vars value

/-- Bindings and first steps, one after the other, after those that are collected, the latest
first. -/
def heads (l : Level) : Nat → List ChainHead → Parser (List ChainHead)
  | 0, collected => pure collected
  | n + 1, collected => onKeyword [
      ("let", do heads l n ((← l.binding) :: collected)),
      ("do", do heads l n (.step (← l.expr) :: collected))] (pure collected)

/-- Bindings and first steps, and the expression after them, around which they are put from the
inside out. -/
def bindingChain (l : Level) : Parser (Ann Expr) := do
  let collected ← l.heads (← remaining) []
  let body ← l.expr
  return collected.foldl ChainHead.wrap body

def lambda (l : Level) : Parser Expr := do
  expect "("
  let params ← sequence l.variableName ")"
  expect "->"
  return .lambda params (← l.expr)

def letRec (l : Level) : Parser Expr := do
  let ds ← l.definitions "in"
  return .letRec ds (← l.expr)

def caseOf (l : Level) : Parser Expr := do
  let subject ← l.expr
  expect "of"
  return .caseOf subject (← l.clauses "end")

def receive (l : Level) : Parser Expr := do
  let cs ← l.clauses "after"
  let timeout ← l.expr
  expect "->"
  return .receive cs timeout (← l.expr)

def apply (l : Level) : Parser Expr := do
  let function ← l.expr
  return .apply function (← l.arguments)

def call (l : Level) : Parser Expr := do
  let unit ← l.expr
  expect ":"
  let function ← l.expr
  return .call unit function (← l.arguments)

def primop (l : Level) : Parser Expr := do
  let name ← l.atom
  return .primop name.node (← l.arguments)

def tryOf (l : Level) : Parser Expr := do
  let body ← l.expr
  expect "of"
  let vars ← l.varList
  expect "->"
  let success ← l.expr
  expect "catch"
  let handlerVars ← l.varList
  expect "->"
  return .tryOf body vars success handlerVars (← l.expr)

/-- What follows each keyword of an expression, other than those that begin a chain. -/
def keywordCases (l : Level) : List (String × Parser Expr) := [
  ("fun", l.lambda),
  ("letrec", l.letRec),
  ("case", l.caseOf),
  ("receive", l.receive),
  ("apply", l.apply),
  ("call", l.call),
  ("primop", l.primop),
  ("try", l.tryOf),
  ("catch", .catching <$> l.expr)]

def exprCases (l : Level) : List (String × Parser Expr) := [
  ("[", bracketed l.expr (.lit .nil) .list),
  ("\x7b", .tuple <$> sequence l.expr "\x7d"),
  ("<", .values <$> sequence l.expr ">"),
  ("#\x7b", .binary <$> sequence l.exprSegment "\x7d#"),
  ("~\x7b", l.mapBody)]

def opensFunName : List Token → Bool
  | t :: rest => t.kind == .atom && startsWith "/" rest
  | [] => false

def opensChain (ts : List Token) : Bool :=
  startsWithName ts && (startsWith "let" ts || startsWith "do" ts)

/-- An expression that begins with a keyword or an opening bracket. -/
def compoundExpr (l : Level) : Parser Expr := do
  if opensChain (← get) then return (← l.bindingChain).node
  else onKeyword l.keywordCases (onSymbol l.exprCases (fail .expression))

def bareExpr (l : Level) : Parser Expr := do
  match ← var? with
  | some name => return .var name
  | none =>
    if opensFunName (← get) then return .funRef (← l.bareFunName)
    else
      match ← literal? l.digits with
      | some value => return .lit value
      | none => l.compoundExpr

/-! ## Modules -/

def attributePair (l : Level) : Parser (String × Const) := do
  let key ← l.atom
  expect "="
  return (key.node, ← l.constant)

def bareModule (l : Level) : Parser Module := do
  expect "module"
  let name ← expectKind .atom
  expect "["
  let exports ← sequence (do return (← l.funName).node) "]"
  expect "attributes"
  expect "["
  let attributes ← sequence l.attributePair "]"
  return ⟨name, exports, attributes, ← l.definitions "end"⟩

/-! ## Levels -/

def next (l : Level) : Level where
  digits := l.digits
  const := l.annotated l.const l.bareConst
  atom := l.annotated l.atom (expectKind .atom)
  var := l.annotated l.var (expectKind .var)
  funName := l.annotated l.funName l.bareFunName
  pattern := l.annotated l.pattern l.barePattern
  expr := l.annotated l.expr l.bareExpr
  unit := l.annotated l.unit l.bareModule

/-- The level that follows a nesting of `depth`. What is counted are the parts that may be annotated,
each read by the level below; how many calls are open at once while they are read is not. -/
def ofDepth (digits : Nat) : Nat → Level
  | 0 => ⟨digits, tooDeep, tooDeep, tooDeep, tooDeep, tooDeep, tooDeep, tooDeep⟩
  | depth + 1 => (ofDepth digits depth).next

end Level

/-- What `p` reads, if it reads all the tokens. -/
def Parser.whole {α : Type} (p : Parser α) (ts : List Token) : Except ParseFailure α :=
  match p ts with
  | .ok (x, []) => .ok x
  | .ok (_, t :: _) => .error (.unexpected .endOfInput (some t))
  | .error e => .error e

def exprOfTokens (depth : Nat) (ts : List Token) : Except ParseFailure (Ann Expr) :=
  (Level.ofDepth numeralLimit depth).expr.whole ts

def moduleOfTokens (depth : Nat) (ts : List Token) : Except ParseFailure (Ann Module) :=
  (Level.ofDepth numeralLimit depth).unit.whole ts

end CallGraph
