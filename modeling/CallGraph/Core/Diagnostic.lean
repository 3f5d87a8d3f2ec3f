import CallGraph.Core.Parser.Grammar
import CallGraph.Token.Stream

/-!
Reading expressions and modules from text. A text that is not well formed gives a diagnostic.
-/

namespace CallGraph

structure Diagnostic where
  message : String
  line : Option Int
  column : Option Int
  file : Option String
deriving DecidableEq

namespace Diagnostic

/-- The name of the file, or a stand-in if there is none. -/
def source (d : Diagnostic) : String :=
  match d.file with
  | none | some "" => "<core>"
  | some file => file

def text (d : Diagnostic) : String :=
  match d.line with
  | none => d.source ++ ": " ++ d.message
  | some line =>
    let column := (d.column.map toString).getD "None"
    d.source ++ ":" ++ toString line ++ ":" ++ column ++ ": " ++ d.message

def located (file : Option String) (p : Position) (message : String) : Diagnostic :=
  ⟨message, some p.line, some p.column, file⟩

end Diagnostic

inductive ReadError where
  | malformed (d : Diagnostic)
  | conversion (e : ConversionError)
deriving DecidableEq

namespace ReadError

def ofLexError (file : Option String) (text : List Char) : LexError → ReadError
  | .unexpected offset c =>
    .malformed (.located file (.ofOffset text offset)
      ("unexpected character " ++ Text.quoted (String.singleton c)))
  | .conversion e => .conversion e

def foundText : Option Token → String
  | some t => t.text
  | none => "end of input"

def ofParseFailure (file : Option String) (text : List Char) : ParseFailure → ReadError
  | .unexpected wanted found =>
    .malformed (.located file (TokenStream.position text found)
      (wanted.message ++ ", found " ++ Text.quoted (foundText found)))
  | .tooDeep => .malformed ⟨"expression nesting too deep", none, none, file⟩
  | .conversion e => .conversion e

end ReadError

def tokensOfText (file : Option String) (text : String) : Except ReadError TokenStream :=
  (TokenStream.ofText text.toList).mapError (.ofLexError file text.toList)

/-- What `parse` makes of the tokens of a text. All of the text is cut into tokens first. -/
def readText {α : Type} (parse : List Token → Except ParseFailure α) (file : Option String)
    (text : String) : Except ReadError α := do
  let stream ← tokensOfText file text
  (parse stream.tokens).mapError (.ofParseFailure file text.toList)

/-- How many levels of nesting are followed. A level is a part that may be annotated, and takes several
nested calls to read, so that this is not a limit of calls that are open at once. -/
def nestingLimit : Nat := 1000

def Expr.ofText (text : String) : Except ReadError (Ann Expr) :=
  readText (exprOfTokens nestingLimit) none text

def Module.ofText (file : Option String) (text : String) : Except ReadError (Ann Module) :=
  readText (moduleOfTokens nestingLimit) file text

end CallGraph
