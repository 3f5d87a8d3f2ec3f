import CallGraph.Call

/-!
The graph of the calls as DOT text, one statement or comment a line. Units are ellipses, other
modules are boxes. Calls of modules that are ignored, and calls to something that is neither an
atom nor a variable, are left as comments.
-/

namespace CallGraph

namespace Dot

def shownChar (c : Char) : List Char :=
  if c == '\\' || c == '"' then ['\\', c]
  else if c == '\n' then ['\\', 'n']
  else [c]

/-- A name in double quotes, which any text may be. -/
def quote (name : String) : String :=
  String.ofList ('"' :: name.toList.flatMap shownChar ++ ['"'])

/-- The text with a blank in each mark that would end a comment. -/
def openMarks : List Char → List Char
  | '*' :: '/' :: cs => '*' :: ' ' :: '/' :: openMarks cs
  | c :: cs => c :: openMarks cs
  | [] => []

def comment (text : String) : String :=
  "/* " ++ String.ofList (openMarks text.toList) ++ " */"

def isWord (name : String) : Bool :=
  match name.toList with
  | c :: cs => (c.isAlpha || c == '_') && cs.all fun c => c.isAlphanum || c == '_'
  | [] => false

def identifier (name : String) : String := if isWord name then name else quote name

end Dot

/-- The modules that are ignored unless others are named: leaves of every program. -/
def defaultIgnored : List String :=
  ["dict", "sets", "gb_sets", "lists", "proplists", "string", "io_lib", "re", "eunit", "erlang"]

/-- Texts that stand for a module and are the name of none. -/
def placeholders : List String := ["-"]

structure Drawing where
  name : String
  ignored : List String

namespace Drawing

def standard : Drawing := ⟨"xr", defaultIgnored⟩

/-- Whether calls of a module are left out. A module that is not known never is. -/
def ignores (d : Drawing) (unit : Option String) : Bool :=
  match unit with
  | some m => d.ignored.contains m
  | none => false

def callLine (d : Drawing) (unit : String) (c : Call) : String :=
  match c with
  | .unimplemented description => Dot.comment ("unhandled call " ++ description)
  | c =>
    if d.ignores c.literalModule then
      Dot.comment ("ignored call to " ++ c.literalModule.getD "")
    else
      let edge := Dot.quote unit ++ " -> " ++ Dot.quote (c.targetLabel.getD "")
      if c.isDotted then edge ++ " [arrowhead=dot]" else edge

/-- The modules that have reports, each where it comes first. -/
def units (reports : List Report) : List String := (reports.map (·.unit)).eraseDups

/-- The modules that are called and have no report, each where it comes first. -/
def externals (reports : List Report) : List String :=
  ((reports.flatMap fun r => r.calls.filterMap Call.literalModule).filter fun m =>
    !(units reports).contains m && !placeholders.contains m).eraseDups

def lines (d : Drawing) (reports : List Report) : List String :=
  ["digraph " ++ Dot.identifier d.name ++ " \x7b"]
    ++ (units reports).map (fun u => "\t" ++ Dot.quote u ++ " [shape=ellipse]")
    ++ (externals reports).map (fun m => "\t" ++ Dot.quote m ++ " [shape=box]")
    ++ reports.flatMap (fun r => r.calls.map fun c => "\t" ++ d.callLine r.unit c)
    ++ ["\x7d"]

def render (d : Drawing) (reports : List Report) : String :=
  String.join ((d.lines reports).map (· ++ "\n"))

end Drawing

end CallGraph
