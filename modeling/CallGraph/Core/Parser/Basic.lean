import CallGraph.Core.Numeral
import CallGraph.Text.Quoted

/-!
Parsers over token lists. A parser gives a value and the tokens after it, or the reason why there
is none. The loops are bounded by the number of tokens left, each turn takes at least one, so the
bound is never felt: where it ends there is no token, and the parser answers as it does without
tokens.
-/

namespace CallGraph

inductive Expectation where
  | symbol (s : String)
  | kind (k : Kind)
  | endOfInput
  | constant
  | expression
  | pattern
  | mapOp
  | modifiers
  | function (name : FunName)
deriving DecidableEq

def Expectation.message : Expectation → String
  | .symbol s => "expected " ++ Text.quoted s
  | .kind k => "expected " ++ k.label
  | .endOfInput => "expected end of input"
  | .constant => "expected constant"
  | .expression => "expected expression"
  | .pattern => "expected pattern"
  | .mapOp => "expected '=>' or ':='"
  | .modifiers => "bit segment needs size, unit, type and flags"
  | .function name => "definition of " ++ name.text ++ " is not a fun"

inductive ParseFailure where
  /-- The token found, none at the end of the text, is not what is asked for. -/
  | unexpected (wanted : Expectation) (found : Option Token)
  | tooDeep
  | conversion (e : ConversionError)
deriving DecidableEq

abbrev Parser (α : Type) := StateT (List Token) (Except ParseFailure) α

namespace Parser

variable {α : Type}

def fail (wanted : Expectation) : Parser α := fun ts => .error (.unexpected wanted ts.head?)

def tooDeep : Parser α := fun _ => .error .tooDeep

def converted : Except ConversionError α → Parser α
  | .ok x => pure x
  | .error e => throw (.conversion e)

def remaining : Parser Nat := do return (← get).length

def startsWith (s : String) : List Token → Bool
  | t :: _ => t.is s
  | [] => false

/-- Whether the next token is the symbol `s`. Takes nothing. -/
def ahead (s : String) : Parser Bool := do return startsWith s (← get)

/-- Takes the next token if it is the symbol of one of the cases, and goes on with that case. -/
def onSymbol (cases : List (String × Parser α)) (otherwise : Parser α) : Parser α
  | t :: rest =>
    match cases.find? (t.is ·.1) with
    | some (_, p) => p rest
    | none => otherwise (t :: rest)
  | [] => otherwise []

def startsWithName : List Token → Bool
  | t :: _ => t.kind == .name
  | [] => false

/-- Takes the next token if it is the keyword of one of the cases, and goes on with that case. Only a
name is a keyword, though no mark in a text is spelled like one. -/
def onKeyword (cases : List (String × Parser α)) (otherwise : Parser α) : Parser α := do
  if startsWithName (← get) then onSymbol cases otherwise
  else otherwise

/-- Takes the symbol `s` if it comes next, and tells whether it did. -/
def accept (s : String) : Parser Bool := onSymbol [(s, pure true)] (pure false)

def expect (s : String) : Parser Unit := onSymbol [(s, pure ())] (fail (.symbol s))

def expectKind (k : Kind) : Parser String
  | t :: rest => if t.kind = k then .ok (t.text, rest) else fail (.kind k) (t :: rest)
  | [] => fail (.kind k) []

/-- Takes the next token if it is a literal. Integers have at most `limit` digits. -/
def literal? (limit : Nat) : Parser (Option Literal)
  | t :: rest =>
    match t.literal? limit with
    | some (.ok l) => .ok (some l, rest)
    | some (.error e) => .error (.conversion e)
    | none => .ok (none, t :: rest)
  | [] => .ok (none, [])

def var? : Parser (Option String)
  | t :: rest => if t.kind = .var then .ok (some t.text, rest) else .ok (none, t :: rest)
  | [] => .ok (none, [])

def commaItems (item : Parser α) : Nat → Parser (List α)
  | 0 => pure []
  | n + 1 => onSymbol [(",", do
      let x ← item
      let xs ← commaItems item n
      return x :: xs)] (pure [])

def items (item : Parser α) : Parser (List α) := do
  let x ← item
  let xs ← commaItems item (← remaining)
  return x :: xs

/-- Items with commas between them, up to and with the symbol that closes them. -/
def sequence (item : Parser α) (close : String) : Parser (List α) :=
  onSymbol [(close, pure [])] do
    let xs ← items item
    expect close
    return xs

/-- Items up to the symbol `stop`, which is not taken. -/
def itemsBefore (item : Parser α) (stop : String) : Nat → Parser (List α)
  | 0 => do
    if ← ahead stop then return []
    else return [← item]
  | n + 1 => do
    if ← ahead stop then return []
    else
      let x ← item
      let xs ← itemsBefore item stop n
      return x :: xs

def opensCells : List Token → Bool
  | t :: rest => t.is "[" && !startsWith "]" rest
  | [] => false

/-- The elements of a list of which `opened` brackets are open, after those that are collected, the
latest first, and its tail. A tail that is itself a list with elements is opened at once, so that a
list written as nested cells is read in a loop. Tells how many brackets are to be closed. -/
def cellLoop (item : Parser α) : Nat → List α → Nat → Parser (List α × Option α × Nat)
  | 0, collected, opened => do
    let xs ← items item
    return (xs.reverse ++ collected, none, opened)
  | n + 1, collected, opened => do
    let xs ← items item
    if ← accept "|" then
      if opensCells (← get) then
        expect "["
        cellLoop item n (xs.reverse ++ collected) (opened + 1)
      else
        let tail ← item
        return (xs.reverse ++ collected, some tail, opened)
    else return (xs.reverse ++ collected, none, opened)

def expectAll (s : String) : Nat → Parser Unit
  | 0 => pure ()
  | n + 1 => do
    expect s
    expectAll s n

/-- The elements and the tail of a list of which the bracket is open. -/
def consChain (item : Parser α) : Parser (List α × Option α) := do
  let (collected, tail, opened) ← cellLoop item (← remaining) [] 1
  expectAll "]" opened
  return (collected.reverse, tail)

end Parser

end CallGraph
