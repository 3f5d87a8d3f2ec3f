import CallGraph.Text.Blank
import CallGraph.World

/-!
The compiler, which turns a source into Core Erlang.
-/

namespace CallGraph

/-- A source that was not compiled, with the exit status and the output if there are any. -/
structure CompileError where
  source : String
  status : Option Int
  output : String
deriving DecidableEq

def CompileError.message (e : CompileError) : String :=
  let status :=
    match e.status with
    | some n => " (rc=" ++ toString n ++ ")"
    | none => ""
  "Error compiling " ++ e.source ++ status ++ ": " ++ Text.trim e.output

def lastChars (count : Nat) (s : String) : String :=
  String.ofList (s.toList.drop (s.toList.length - count))

def outputLimit : Nat := 2000

/-- The first of the texts that is there and is not empty. -/
def firstText (texts : List (Option String)) : String :=
  ((texts.filterMap id).find? (· != "")).getD ""

structure Compiler where
  executable : String
  timeout : Seconds

namespace Compiler

def standard : Compiler := ⟨"erlc", .whole 120⟩

/-- The command that compiles a source, with the output beside it. -/
def command (c : Compiler) (source : Path) : Command :=
  ⟨[c.executable, "+to_core", "-o", source.parent.text, source.text], c.timeout⟩

def launch (c : Compiler) (source : Path) : WorldM Ending := do
  let command := c.command source
  World.log .debug ("Running erlc: " ++ String.intercalate " " command.argv)
  World.runCompiler command source

/-- What is made of the way in which the compiler ended. Only if it reports success is its output
looked for. -/
def judge (c : Compiler) (source : Path) (ending : Ending) : WorldM (Except CompileError Path) := do
  let failed (status : Option Int) (output : String) : Except CompileError Path :=
    .error ⟨source.text, status, output⟩
  match ending with
  | .timedOut => return failed none ("erlc timed out after " ++ c.timeout.text ++ "s")
  | .missing => return failed none (c.executable ++ " not found")
  | .denied => throw (.os .permissionDenied)
  | .garbled => throw (.conversion .notText)
  | .exited status output errors =>
    if status != 0 then
      return failed (some status) (lastChars outputLimit (firstText [errors, output]))
    else
      let path := World.corePath source.parent source
      if (← World.entry? path).isSome then return .ok path
      else return failed (some status) ("erlc did not produce " ++ path.text)

def compile (c : Compiler) (source : Path) : WorldM (Except CompileError Path) := do
  let ending ← c.launch source
  c.judge source ending

def missing (c : Compiler) (tools : Toolbox) : List String :=
  if tools.present.contains c.executable then []
  else [c.executable ++ " not found on PATH (install Erlang/OTP)"]

end Compiler

end CallGraph
