import CallGraph.Call.Extraction
import CallGraph.Core.Diagnostic
import CallGraph.Graph
import CallGraph.Phase.Tracker
import CallGraph.Sources
import CallGraph.Text.Utf8
import CallGraph.Tool.Layout

/-!
A run: find the sources below a directory, compile each, read the calls from what the compiler
wrote, write the graph, and have it drawn. A unit that fails is left out and reported; the others
are not concerned.
-/

namespace CallGraph

inductive FailurePoint where
  | compile
  | parse
  | read
deriving DecidableEq

def FailurePoint.label : FailurePoint → String
  | .compile => "compile"
  | .parse => "parse"
  | .read => "read"

structure UnitFailure where
  path : String
  point : FailurePoint
  error : String
deriving DecidableEq

inductive Event where
  | prerequisiteMissing (detail : String)
  | phase (p : Phase)
  | compileFailed (source : String) (status : Option Int) (error : String)
  | parseFailed (file error : String)
  | readFailed (file error : String)
  | cleanupFailed (file error : String)
  | unitExtracted (unit : String) (calls : Nat)
  | done (units skipped : Nat) (failedPhases : List String) (duration : String)

namespace Event

def name : Event → String
  | .prerequisiteMissing _ => "pipeline.prerequisite_missing"
  | .phase _ => "pipeline.phase"
  | .compileFailed .. => "pipeline.compile_failed"
  | .parseFailed .. => "pipeline.parse_failed"
  | .readFailed .. => "pipeline.read_failed"
  | .cleanupFailed .. => "pipeline.cleanup_failed"
  | .unitExtracted .. => "pipeline.unit_extracted"
  | .done .. => "pipeline.done"

def level : Event → LogLevel
  | .unitExtracted .. => .debug
  | .phase _ | .done .. => .info
  | .prerequisiteMissing _ | .compileFailed .. | .parseFailed .. | .readFailed ..
  | .cleanupFailed .. => .warning

def fields : Event → List (String × Json)
  | .prerequisiteMissing detail => [("detail", .text detail)]
  | .phase p =>
    [("phase", .text p.name), ("status", .text p.status.label),
      ("duration", .ofOption (fun d => .text d.text) p.duration),
      ("detail", if p.detail == "" then .null else .text p.detail),
      ("error", .ofOption .text p.error)]
  | .compileFailed source status error =>
    [("source", .text source), ("returncode", .ofOption .integer status), ("error", .text error)]
  | .parseFailed file error | .readFailed file error | .cleanupFailed file error =>
    [("file", .text file), ("error", .text error)]
  | .unitExtracted unit calls => [("unit", .text unit), ("calls", .integer calls)]
  | .done units skipped failedPhases duration =>
    [("units", .integer units), ("skipped_units", .integer skipped),
      ("failed_phases", .array (failedPhases.map .text)), ("duration", .text duration)]

end Event

structure Session where
  world : World
  tracker : Tracker
  events : List Event
  failures : List UnitFailure

/-- Steps of a run. What was done before a fault stays done. -/
abbrev RunM := ExceptT Fault (StateM Session)

structure Plan where
  compiler : Compiler
  drawing : Drawing
  layout : Layout
  jobs : Int
  root : Path
  output : String
  image : Option String

/-- What is missing for the plan. The layout tool is needed only for an image. -/
def Plan.missing (p : Plan) (tools : Toolbox) : List String :=
  p.compiler.missing tools ++ (if p.image.isSome then p.layout.missing tools else [])

structure Outcome where
  graph : String
  image : Option String
  sourceCount : Nat
  reports : List Report
  failures : List UnitFailure

def callCount (reports : List Report) : Nat := (reports.map (·.calls.length)).foldr (· + ·) 0

def ExtractError.fault : ExtractError → Fault
  | .noRule part => .noRule part.label
  | .tooDeep => .tooDeep

namespace Run

def emit (e : Event) : RunM Unit := modify fun s => { s with events := s.events ++ [e] }

def leaveOut (f : UnitFailure) : RunM Unit :=
  modify fun s => { s with failures := s.failures ++ [f] }

def lift {α : Type} (x : WorldM α) : RunM α := do
  let s ← get
  let (result, world) := x.run s.world
  set { s with world }
  match result with
  | .ok a => return a
  | .error e => throw e

def phase (step : PhaseStep) : RunM Unit := do
  let s ← get
  let (tracker, changed) := s.tracker.step step
  set { s with tracker }
  match changed with
  | some p => emit (.phase p)
  | none => return

/-- The outcomes of compiling the sources, one at a time. A refusal ends this at once. -/
def compileInTurn (c : Compiler) : List Path → RunM (List (Path × Except CompileError Path))
  | [] => return []
  | source :: sources => do
    let result ← lift (c.compile source)
    let results ← compileInTurn c sources
    return (source, result) :: results

/-- The outcomes of compiling the sources side by side. A refusal is noticed when all are done; of
several the one that comes first. -/
def compileTogether (c : Compiler) : List Path → RunM (List (Path × Except CompileError Path))
  | [] => return []
  | source :: sources => do
    let first ← observing (lift (c.compile source))
    let others ← observing (compileTogether c sources)
    let result ← MonadExcept.ofExcept first
    let results ← MonadExcept.ofExcept others
    return (source, result) :: results
where
  observing {α : Type} (x : RunM α) : RunM (Except Fault α) := do
    try return .ok (← x) catch e => return .error e

/-- Reports the sources that were not compiled, and gives the paths of the output of the others. -/
def sortOut : List (Path × Except CompileError Path) → RunM (List Path)
  | [] => return []
  | (_, .ok path) :: rest => do
    let paths ← sortOut rest
    return path :: paths
  | (source, .error e) :: rest => do
    emit (.compileFailed source.text e.status (Text.trim e.output))
    leaveOut ⟨source.text, .compile, e.message⟩
    sortOut rest

def compileAll (c : Compiler) (jobs : Int) (sources : List Path) : RunM (List Path) := do
  let results ← if 1 < jobs then compileTogether c sources else compileInTurn c sources
  sortOut results

def discard (path : Path) : RunM Unit := do
  let s ← get
  match s.world.files.remove path with
  | .ok files => set { s with world := { s.world with files } }
  | .error (.os (.noSuchFile _)) => return
  | .error (.os e) => emit (.cleanupFailed path.text e.message)
  | .error e => throw e

/-- Reads the calls from a file and takes it away, also if it cannot be read. Gives nothing for a
unit that is left out. -/
def extractFile (path : Path) : RunM (Option Report) := do
  let bytes := (← get).world.files.read path
  discard path
  match bytes with
  | .error (.os e) =>
    emit (.readFailed path.text e.message)
    leaveOut ⟨path.text, .read, e.message⟩
    return none
  | .error e => throw e
  | .ok bytes =>
    match Module.ofText (some path.text) (Text.ofFile bytes) with
    | .error (.malformed d) =>
      emit (.parseFailed path.text d.text)
      leaveOut ⟨path.text, .parse, d.text⟩
      return none
    | .error (.conversion e) => throw (.conversion e)
    | .ok m =>
      match m.node.report stackLimit with
      | .error e => throw e.fault
      | .ok report =>
        emit (.unitExtracted report.unit report.calls.length)
        return some report

def extractAll : List Path → RunM (List Report)
  | [] => return []
  | path :: paths => do
    let report ← extractFile path
    let reports ← extractAll paths
    return report.toList ++ reports

def writeGraph (output text : String) : RunM Unit := do
  try
    lift (World.change (·.write (.ofText output) text.toUTF8))
  catch e =>
    if let .os refusal := e then phase (.fail "render" refusal.message)
    throw e

/-- The beginning of a run: what is missing is reported, and the sources are found. -/
def survey (plan : Plan) : RunM (List Path) := do
  (plan.missing (← get).world.tools).forM fun detail => emit (.prerequisiteMissing detail)
  phase (.start "discover")
  let sources ← lift (Sources.discover stackLimit plan.root)
  phase (.complete "discover" (toString sources.length ++ " source files"))
  phase (.start "compile")
  return sources

/-- The rest of a run, when the output of sources is at these paths. -/
def conclude (plan : Plan) (sourceCount : Nat) (paths : List Path) : RunM Outcome := do
  phase (.complete "compile"
    (toString paths.length ++ " ok, " ++ toString (sourceCount - paths.length) ++ " failed"))
  phase (.start "extract")
  let reports ← extractAll paths
  phase (.complete "extract"
    (toString reports.length ++ " units, " ++ toString (callCount reports) ++ " calls"))
  phase (.start "render")
  writeGraph plan.output (plan.drawing.render reports)
  phase (.complete "render" plan.output)
  match plan.image with
  | none => phase (.skip "image" "disabled")
  | some image =>
    phase (.start "image")
    match ← lift (plan.layout.draw plan.output image) with
    | some 0 => phase (.complete "image" image)
    | status =>
      let text := (status.map toString).getD "None"
      phase (.fail "image" ("dot exit status " ++ text))
  let s ← get
  emit (.done reports.length s.failures.length (s.tracker.failed.map (·.name))
    (totalText s.tracker.phases))
  return ⟨plan.output, plan.image, sourceCount, reports, s.failures⟩

/-- A run in which the sources are compiled by `compile`. -/
def runWith (plan : Plan) (compile : List Path → RunM (List Path)) : RunM Outcome := do
  let sources ← survey plan
  let paths ← compile sources
  conclude plan sources.length paths

def run (plan : Plan) : RunM Outcome := runWith plan (compileAll plan.compiler plan.jobs)

end Run

end CallGraph
