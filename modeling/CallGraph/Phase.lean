import CallGraph.Number.Shortest

/-!
Phases of a run and the time they take.
-/

namespace CallGraph

inductive PhaseStatus where
  | pending
  | running
  | completed
  | failed
  | skipped
deriving DecidableEq

namespace PhaseStatus

def all : List PhaseStatus := [.pending, .running, .completed, .failed, .skipped]

def label : PhaseStatus → String
  | .pending => "pending"
  | .running => "running"
  | .completed => "completed"
  | .failed => "failed"
  | .skipped => "skipped"

def ofLabel? (s : String) : Option PhaseStatus := all.find? (·.label == s)

def icon : PhaseStatus → String
  | .pending => "."
  | .running => "~"
  | .completed => "+"
  | .failed => "!"
  | .skipped => "-"

end PhaseStatus

structure Phase where
  name : String
  status : PhaseStatus
  start : Option Binary64
  stop : Option Binary64
  detail : String
  error : Option String
deriving DecidableEq

namespace Phase

def duration (p : Phase) : Option Binary64 :=
  match p.start, p.stop with
  | some start, some stop => some ((stop.sub start).roundPlaces 2)
  | _, _ => none

/-- The phase when it has ended. An empty detail leaves the one that is there. -/
def ended (p : Phase) (status : PhaseStatus) (now : Binary64) (detail : String)
    (error : Option String) : Phase :=
  { p with
    status, error, stop := some now, detail := if detail == "" then p.detail else detail }

/-- The phase on one line. A duration of zero and empty texts are left out. -/
def line (p : Phase) : String :=
  let time :=
    match p.duration with
    | some d => if d.isZero then "" else " (" ++ d.text ++ "s)"
    | none => ""
  let detail := if p.detail == "" then "" else " - " ++ p.detail
  let error :=
    match p.error with
    | none | some "" => ""
    | some e => " ERROR: " ++ e
  "[" ++ p.status.icon ++ "] " ++ p.name ++ time ++ detail ++ error

end Phase

/-- The time that phases take together, to two places. Phases that take no time do not count; if
none counts there is no total. -/
def totalDuration (phases : List Phase) : Option Binary64 :=
  match (phases.filterMap Phase.duration).filter (!·.isZero) with
  | [] => none
  | d :: ds => some ((ds.foldl Binary64.add d).roundPlaces 2)

/-- A total as it is shown. Where nothing counts it is a bare zero. -/
def totalText (phases : List Phase) : String := ((totalDuration phases).map Binary64.text).getD "0"

end CallGraph
