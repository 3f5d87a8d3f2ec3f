import CallGraph.CommandLine.Options
import CallGraph.Run
import CallGraph.Text.DecimalDigit
import CallGraph.Text.Terminal

/-!
The command line. `run` makes a graph of the sources below a directory, `inspect` lists the calls
of one compiled file. What is printed is meant for any reader, not for a terminal: control sequences
that come with names and messages are left out.
-/

namespace CallGraph

structure LogRequest where
  level : Option String
  format : Option String
deriving DecidableEq

structure CommandResult where
  exitCode : Nat
  stdout : String
  stderr : String
  escaped : Option Fault
  /-- Set once the command is known, before its own arguments are read. -/
  log : Option LogRequest

namespace CommandResult

def success (stdout : String) : CommandResult := ⟨0, stdout, "", none, none⟩

def failure (line : String) : CommandResult := ⟨1, "", Text.unstyled line ++ "\n", none, none⟩

def usage : CommandResult := ⟨2, "", "", none, none⟩

def crash (e : Fault) : CommandResult := ⟨1, "", "", some e, none⟩

end CommandResult

namespace CommandLine

def ofLines (lines : List String) : String :=
  String.join (lines.map fun line => Text.unstyled line ++ "\n")

inductive ArgumentError where
  | usage (e : UsageError)
  | conversion (e : ConversionError)

/-! ## Options -/

def help : OptionSpec := ⟨"help", none, false⟩

def groupOptions : List OptionSpec :=
  [⟨"verbose", some 'v', false⟩, ⟨"log-format", none, true⟩, help]

def runOptions : List OptionSpec :=
  [⟨"output", some 'o', true⟩, ⟨"image", none, true⟩, ⟨"no-image", none, false⟩,
    ⟨"name", none, true⟩, ⟨"jobs", some 'j', true⟩, ⟨"erlc", none, true⟩, ⟨"dot", none, true⟩, help]

def inspectOptions : List OptionSpec := [⟨"json", none, false⟩, help]

/-- The value of the digits of an integer. Single underlines may stand between digits. -/
def digitsValue? : List Char → Option (List Char)
  | [] => none
  | [c] => if Text.isDigit c then some [c] else none
  | c :: '_' :: cs => if Text.isDigit c then (digitsValue? cs).map (c :: ·) else none
  | c :: cs => if Text.isDigit c then (digitsValue? cs).map (c :: ·) else none

/-- The integer that a text writes, with white space around it or not. -/
def integer? (s : String) : Option Int :=
  let (negative, cs) : Bool × List Char :=
    match Text.trimWhere Text.isWhite s.toList with
    | '-' :: cs => (true, cs)
    | '+' :: cs => (false, cs)
    | cs => (false, cs)
  match digitsValue? cs with
  | some ds =>
    if numeralLimit < ds.length then none
    else
      let n : Int := Text.numberOfDigits ds
      some (if negative then -n else n)
  | none => none

/-- How many sources are compiled at a time. It is one or more. -/
def jobs (a : Arguments) : Except UsageError Int :=
  match a.value? "jobs" with
  | none => .ok 1
  | some s =>
    match integer? s with
    | some n => if 1 ≤ n then .ok n else .error (.wrongValue "jobs" s)
    | none => .error (.wrongValue "jobs" s)

/-- The first argument, if `wanted` finds what it wants at that path. There may be no other
argument; this is looked at last. -/
def soleEntry {α : Type} (wanted : Entry → Option α) (files : Entry) (a : Arguments) :
    Except ArgumentError (String × α) := do
  match a.positional with
  | [] => throw (.usage .wrongArguments)
  | path :: others =>
    match (← (files.written? path).mapError .conversion).bind wanted with
    | some x => if others.isEmpty then return (path, x) else throw (.usage .wrongArguments)
    | none => throw (.usage .wrongArguments)

def planOf (files : Entry) (a : Arguments) : Except ArgumentError Plan := do
  let jobs ← (jobs a).mapError .usage
  let (root, _) ← soleEntry (fun e => if e.isDir then some e else none) files a
  return {
    compiler := { Compiler.standard with
      executable := (a.value? "erlc").getD Compiler.standard.executable }
    drawing := { Drawing.standard with name := (a.value? "name").getD Drawing.standard.name }
    layout := { Layout.standard with
      executable := (a.value? "dot").getD Layout.standard.executable }
    jobs
    root := .ofText root
    output := (a.value? "output").getD "xr.dot"
    image := if a.has "no-image" then none else some ((a.value? "image").getD "xr.png") }

/-! ## The commands -/

def summary (o : Outcome) (phases : List Phase) : List String :=
  ["", "Analysis complete:",
    "  Sources: " ++ toString o.sourceCount,
    "  Units: " ++ toString o.reports.length,
    "  Calls: " ++ toString (callCount o.reports),
    "  Graph: " ++ o.graph]
    ++ (match o.image with
      | none | some "" => []
      | some image => ["  Image: " ++ image])
    ++ (if o.failures.isEmpty then []
      else
        ["", "Skipped units (" ++ toString o.failures.length ++ "):"]
          ++ o.failures.map fun f => "  [" ++ f.point.label ++ "] " ++ f.path ++ ": " ++ f.error)
    ++ ["", "Pipeline summary (total: " ++ totalText phases ++ "s):"]
    ++ phases.map fun p => "  " ++ p.line

def runCommand (plan : Plan) (world : World) (clock : Clock) : CommandResult × World :=
  let (result, session) := (Run.run plan).run ⟨world, .ofClock clock, [], []⟩
  let answer :=
    match result with
    | .ok outcome => CommandResult.success (ofLines (summary outcome session.tracker.phases))
    | .error (.os e) =>
      .failure ("Error: cannot write " ++ plan.output ++ ": " ++ e.message)
    | .error e => .crash e
  (answer, session.world)

def listing (r : Report) : List String :=
  ["Unit: " ++ r.unit, "Calls: " ++ toString r.calls.length] ++ r.calls.map fun c => "  " ++ c.text

def jsonListing (r : Report) : List String :=
  [Json.render 0 (.object [("unit", .text r.unit), ("calls", .array (r.calls.map Call.toJson))])]

def inspectCommand (file : String) (bytes : ByteArray) (asJson : Bool) : CommandResult :=
  match Module.ofText (some file) (Text.ofFile bytes) with
  | .ok m =>
    match m.node.report stackLimit with
    | .ok report => .success (ofLines (if asJson then jsonListing report else listing report))
    | .error e => .crash e.fault
  | .error (.malformed d) => .failure ("Error: " ++ d.text)
  | .error (.conversion e) => .crash (.conversion e)

def usageText (name : String) : CommandResult := .success ("Usage: " ++ name ++ "\n")

def command? (name : String) :
    Option (List String → World → Clock → Except ArgumentError (CommandResult × World)) :=
  match name with
  | "run" => some fun args world clock => do
    let a ← (Arguments.read runOptions true args).mapError .usage
    if a.has "help" then return (usageText "xref-graph run [OPTIONS] ROOT", world)
    return runCommand (← planOf world.files a) world clock
  | "inspect" => some fun args world _ => do
    let a ← (Arguments.read inspectOptions true args).mapError .usage
    if a.has "help" then return (usageText "xref-graph inspect [OPTIONS] CORE_FILE", world)
    let (file, bytes) ← soleEntry Entry.bytes? world.files a
    return (inspectCommand file bytes (a.has "json"), world)
  | _ => none

def logRequest (a : Arguments) : Except UsageError LogRequest :=
  let level := if a.has "verbose" then some "DEBUG" else none
  match a.value? "log-format" with
  | none => .ok ⟨level, none⟩
  | some "console" => .ok ⟨level, some "console"⟩
  | some "json" => .ok ⟨level, some "json"⟩
  | some other => .error (.wrongValue "log-format" other)

/-- Reads the options of the whole command line and the name of the command, and runs it. -/
def interpret (args : List String) (world : World) (clock : Clock) :
    Except UsageError (CommandResult × World) := do
  let a ← Arguments.read groupOptions false args
  if a.has "help" then return (usageText "xref-graph [OPTIONS] COMMAND [ARGS]...", world)
  let log ← logRequest a
  match a.positional with
  | [] => .error .noCommand
  | name :: rest =>
    match command? name with
    | none => .error (.unknownCommand name)
    | some command =>
      match command rest world clock with
      | .ok (result, world) => return ({ result with log := some log }, world)
      | .error (.usage _) => return ({ CommandResult.usage with log := some log }, world)
      | .error (.conversion e) => return ({ CommandResult.crash (.conversion e) with log := some log }, world)

/-- Runs a command line. A command line that is not understood ends with exit code two. -/
def execute (args : List String) (world : World) (clock : Clock) : CommandResult × World :=
  match interpret args world clock with
  | .ok result => result
  | .error _ => (CommandResult.usage, world)

end CommandLine

end CallGraph
