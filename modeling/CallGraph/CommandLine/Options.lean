/-!
Options on a command line. An option is a word after two dashes or a letter after one; letters may
stand together. A value follows in the same argument or is the next one, whatever it is. After two
bare dashes there are no more options.
-/

namespace CallGraph

structure OptionSpec where
  long : String
  short : Option Char
  takesValue : Bool

/-- The options that are given, each with its value, and the other arguments, both in order. -/
structure Arguments where
  options : List (String × String)
  positional : List String

inductive UsageError where
  | unknownOption (arg : String)
  | unexpectedValue (arg : String)
  | missingValue (arg : String)
  | wrongValue (option value : String)
  | wrongArguments
  | noCommand
  | unknownCommand (name : String)
deriving DecidableEq

namespace Arguments

def empty : Arguments := ⟨[], []⟩

def addOptions (options : List (String × String)) (a : Arguments) : Arguments :=
  { a with options := options ++ a.options }

def addPositional (arg : String) (a : Arguments) : Arguments :=
  { a with positional := arg :: a.positional }

/-- The value of an option. The last one given counts. -/
def value? (a : Arguments) (option : String) : Option String :=
  a.options.reverse.lookup option

def has (a : Arguments) (option : String) : Bool := (a.value? option).isSome

/-- What an argument says: options with their values, and the option, if there is one, of which the
value is the next argument. -/
structure Reading where
  options : List (String × String)
  pending : Option String

/-- Reads letters that stand together. What follows the letter of an option that takes a value is
its value. -/
def readLetters (specs : List OptionSpec) (arg : String) : List Char → Except UsageError Reading
  | [] => .ok ⟨[], none⟩
  | c :: cs =>
    match specs.find? (·.short == some c) with
    | none => .error (.unknownOption arg)
    | some spec =>
      if spec.takesValue then
        if cs.isEmpty then .ok ⟨[], some spec.long⟩
        else .ok ⟨[(spec.long, String.ofList cs)], none⟩
      else do
        let r ← readLetters specs arg cs
        return { r with options := (spec.long, "") :: r.options }

def readOption (specs : List OptionSpec) (arg : String) : Except UsageError Reading :=
  let cs := arg.toList
  let word := String.ofList (cs.takeWhile (· != '='))
  let value := (cs.dropWhile (· != '=')).tail
  match specs.find? fun spec => "--" ++ spec.long == word with
  | some spec =>
    match spec.takesValue, cs.contains '=' with
    | true, true => .ok ⟨[(spec.long, String.ofList value)], none⟩
    | true, false => .ok ⟨[], some spec.long⟩
    | false, true => .error (.unexpectedValue arg)
    | false, false => .ok ⟨[(spec.long, "")], none⟩
  | none =>
    match cs with
    | '-' :: '-' :: _ => .error (.unknownOption arg)
    | _ => readLetters specs arg (cs.drop 1)

/-- Whether an argument is read as an option. A single dash is not. -/
def isOption (arg : String) : Bool :=
  match arg.toList with
  | '-' :: _ :: _ => true
  | _ => false

/-- Reads the arguments. With `mixed`, options may stand after other arguments; otherwise all that
follows the first other argument is left as it is. -/
def read (specs : List OptionSpec) (mixed : Bool) : List String → Except UsageError Arguments
  | [] => .ok .empty
  | arg :: rest =>
    if arg == "--" then .ok ⟨[], rest⟩
    else if isOption arg then
      match readOption specs arg, rest with
      | .error e, _ => .error e
      | .ok ⟨options, none⟩, rest => (read specs mixed rest).map (addOptions options)
      | .ok ⟨options, some option⟩, value :: rest =>
        (read specs mixed rest).map (addOptions (options ++ [(option, value)]))
      | .ok ⟨_, some _⟩, [] => .error (.missingValue arg)
    else if mixed then (read specs mixed rest).map (addPositional arg)
    else .ok ⟨[], arg :: rest⟩

end Arguments

end CallGraph
