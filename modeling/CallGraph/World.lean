import CallGraph.Log
import CallGraph.Number.Places
import CallGraph.World.Files

/-!
The world of a run: the files, the tools that are installed, and what has been done so far. The
compiler may leave something beside a source; the layout tool leaves nothing that is looked at.
-/

namespace CallGraph

inductive Ending where
  | exited (status : Int) (output errors : Option String)
  /-- The process ends by itself, but what it wrote is not text. -/
  | garbled
  | timedOut
  | missing
  /-- The program is there, and the system does not run it. -/
  | denied

namespace Ending

def isOwn : Ending → Bool
  | .exited .. | .garbled => true
  | .timedOut | .missing | .denied => false

/-- How a process ends that cannot leave its product: it does not report success. -/
def unplaced : Ending → Ending
  | .exited status output errors => .exited (if status = 0 then 1 else status) output errors
  | ending => ending

end Ending

inductive Product where
  | file (bytes : ByteArray)
  | dir

/-- What a process does. Only one that ends by itself leaves something. -/
structure Behaviour where
  ending : Ending
  product : Option Product

/-- The tools: what the compiler does with each source, how the layout tool ends, and which programs
are found. -/
structure Toolbox where
  compiling : String → Behaviour
  layout : Ending
  present : List String

inductive Seconds where
  | whole (n : Int)
  | precise (x : Binary64)
deriving DecidableEq

namespace Seconds

def text : Seconds → String
  | .whole n => toString n
  | .precise x => x.text

def wholeText : Seconds → String
  | .whole n => toString n
  | .precise x => (x.truncated?.map toString).getD x.text

end Seconds

structure Command where
  argv : List String
  timeout : Seconds
deriving DecidableEq

structure World where
  files : Entry
  tools : Toolbox
  commands : List Command
  logs : List LogRecord

/-- Work in the world, which a fault may end. What was done before stays done. -/
abbrev WorldM := ExceptT Fault (StateM World)

namespace World

def log (level : LogLevel) (message : String) : WorldM Unit :=
  modify fun w => { w with logs := w.logs ++ [⟨level, message⟩] }

def start (c : Command) : WorldM Unit :=
  modify fun w => { w with commands := w.commands ++ [c] }

/-- Changes the files, unless the change is refused. -/
def change (f : Entry → Except Fault Entry) : WorldM Unit := do
  let w ← get
  match f w.files with
  | .ok files => set { w with files }
  | .error e => throw e

def leave (p : Path) : Product → WorldM Unit
  | .file bytes => change (·.write p bytes)
  | .dir => change (·.makeDir p)

def entry? (p : Path) : WorldM (Option Entry) := do
  match (← get).files.at? p with
  | .ok e => return e
  | .error e => throw (.os e)

/-- Where the compiler puts its output for a source in a directory. -/
def corePath (dir source : Path) : Path := dir.child (source.stem ++ ".core")

/-- Runs the compiler on a source. A product that has no place is not left, and the compiler does not
report success. -/
def runCompiler (c : Command) (source : Path) : WorldM Ending := do
  start c
  let b := (← get).tools.compiling source.text
  match b.ending.isOwn, b.product with
  | true, some product =>
    try
      leave (corePath source.parent source) product
      return b.ending
    catch _ => return b.ending.unplaced
  | _, _ => return b.ending

def runLayout (c : Command) : WorldM Ending := do
  start c
  return (← get).tools.layout

end World

end CallGraph
