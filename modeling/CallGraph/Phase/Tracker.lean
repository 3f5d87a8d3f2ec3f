import CallGraph.Log
import CallGraph.Phase

/-!
The record of the phases of a run, and those who are told of its changes.
-/

namespace CallGraph

/-- A clock that shows given times, one after the other, and then the last one for ever. -/
structure Clock where
  upcoming : List Binary64
  last : Binary64
deriving DecidableEq

namespace Clock

def ofList (times : List Binary64) : Clock := ⟨times, .zero⟩

def read (c : Clock) : Binary64 × Clock :=
  match c.upcoming with
  | t :: ts => (t, ⟨ts, t⟩)
  | [] => (c.last, c)

end Clock

inductive PhaseStep where
  | start (name : String)
  | skip (name reason : String)
  | complete (name detail : String)
  | fail (name error : String)
deriving DecidableEq

/-- The phases in the order in which they were added, and for each name the place of the phase that
it means. Of several phases with one name it means the latest. -/
structure Tracker where
  phases : List Phase
  index : List (String × Nat)
  clock : Clock
deriving DecidableEq

namespace Tracker

def ofClock (c : Clock) : Tracker := ⟨[], [], c⟩

def get? (t : Tracker) (name : String) : Option Phase :=
  (t.index.lookup name).bind fun place => t.phases[place]?

def pointTo (name : String) (place : Nat) : List (String × Nat) → List (String × Nat)
  | [] => [(name, place)]
  | (other, i) :: rest =>
    if other == name then (other, place) :: rest else (other, i) :: pointTo name place rest

/-- Adds a phase, which its name means from then on. -/
def add (t : Tracker) (p : Phase) : Tracker :=
  { t with phases := t.phases ++ [p], index := pointTo p.name t.phases.length t.index }

def finish (t : Tracker) (name : String) (status : PhaseStatus) (detail : String)
    (error : Option String) : Tracker × Option Phase :=
  match t.index.lookup name with
  | none => (t, none)
  | some place =>
    let (now, clock) := t.clock.read
    let phases := t.phases.modify place (·.ended status now detail error)
    ({ t with phases, clock }, phases[place]?)

/-- The record after a step, and the phase that the step has changed. A step that ends a phase which
is not there changes nothing. -/
def step (t : Tracker) : PhaseStep → Tracker × Option Phase
  | .start name =>
    let (now, clock) := t.clock.read
    let p : Phase := ⟨name, .running, some now, none, "", none⟩
    ({ t with clock }.add p, some p)
  | .skip name reason =>
    let p : Phase := ⟨name, .skipped, none, none, reason, none⟩
    (t.add p, some p)
  | .complete name detail => t.finish name .completed detail none
  | .fail name error => t.finish name .failed "" (some error)

def failed (t : Tracker) : List Phase := t.phases.filter (·.status == .failed)

def lines (t : Tracker) : List String := t.phases.map Phase.line

end Tracker

/-- One who is told of changes: it keeps a record of them, or it fails each time. -/
inductive Observer where
  | recording (record : List Phase := [])
  | broken
deriving DecidableEq

/-- The observer when it has been told of a phase. Gives nothing if it fails. -/
def Observer.tell (p : Phase) : Observer → Option Observer
  | .recording record => some (.recording (record ++ [p]))
  | .broken => none

structure Monitor where
  tracker : Tracker
  observers : List Observer
  seen : List Phase
  logs : List LogRecord

namespace Monitor

/-- Every observer is told of a phase, in order: the observers afterwards, what they have seen, and
what is logged. One that fails is as it was, and those after it are told nevertheless. -/
def notify (p : Phase) : List Observer → List Observer × List Phase × List LogRecord
  | [] => ([], [], [])
  | o :: os =>
    let (told, seen, logs) := notify p os
    match o.tell p with
    | some o => (o :: told, p :: seen, logs)
    | none => (o :: told, seen, ⟨.debug, "Progress callback error for phase " ++ p.name⟩ :: logs)

def ignored : PhaseStep → List LogRecord
  | .complete name _ =>
    [⟨.debug, "Ignoring completed for phase " ++ name ++ " that never started"⟩]
  | .fail name _ => [⟨.debug, "Ignoring failed for phase " ++ name ++ " that never started"⟩]
  | .start _ | .skip .. => []

def step (m : Monitor) (s : PhaseStep) : Monitor :=
  match m.tracker.step s with
  | (tracker, some p) =>
    let (observers, seen, logs) := notify p m.observers
    { tracker, observers, seen := m.seen ++ seen, logs := m.logs ++ logs }
  | (tracker, none) => { m with tracker, logs := m.logs ++ ignored s }

end Monitor

end CallGraph
