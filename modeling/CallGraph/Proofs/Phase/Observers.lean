import CallGraph.Proofs.Phase.History
import Mathlib.Data.List.Forall2

/-!
What the observers of a record see. One that keeps a record sees each change of a phase once, in
order, as the phase is right after the change. One that fails makes no difference to the others nor
to the record of the phases.
-/

namespace CallGraph

namespace PhaseStep

/-- Whether a step changes a phase after a history: it adds one, or it ends one that was added. -/
def changes (earlier : List PhaseStep) (s : PhaseStep) : Bool :=
  s.adds || (added earlier).contains s.name

theorem changes_iff {earlier : List PhaseStep} {s : PhaseStep} :
    s.changes earlier = true ↔ s.adds = true ∨ s.name ∈ added earlier := by
  rw [changes, Bool.or_eq_true, List.contains_iff_mem]

/-- The steps after `earlier` that change a phase, in order, each with all that was before it. -/
def turns (earlier : List PhaseStep) : List PhaseStep → List (List PhaseStep × PhaseStep)
  | [] => []
  | s :: later =>
    if s.changes earlier then (earlier, s) :: turns (earlier ++ [s]) later
    else turns (earlier ++ [s]) later

end PhaseStep

namespace Tracker

/-- The phases that steps change, each as its step leaves it. -/
def events (t : Tracker) : List PhaseStep → List Phase
  | [] => []
  | s :: steps => (t.step s).2.toList ++ (t.step s).1.events steps

/-- Each step of a history that changes a phase gives one event, and this is the phase that its name
means right after it. -/
theorem events_run (c : Clock) (earlier steps : List PhaseStep) :
    List.Forall₂
      (fun turn p => ((ofClock c).run (turn.1 ++ [turn.2])).get? turn.2.name = some p)
      (PhaseStep.turns earlier steps) (((ofClock c).run earlier).events steps) := by
  induction steps generalizing earlier with
  | nil => exact .nil
  | cons s later ih =>
    have hsound := sound_run c earlier
    have hlater := ih (earlier ++ [s])
    rw [run_concat] at hlater
    rw [PhaseStep.turns, events]
    split
    next hchanges =>
      rw [PhaseStep.changes_iff, ← names_run_ofClock c] at hchanges
      obtain ⟨p, hp, hget⟩ := hsound.step_known hchanges
      rw [hp]
      refine .cons ?_ hlater
      rw [run_concat]
      exact hget
    next hchanges =>
      rw [PhaseStep.changes_iff, not_or, ← names_run_ofClock c, Bool.not_eq_true] at hchanges
      obtain ⟨hadds, hunknown⟩ := hchanges
      rw [hsound.step_unknown hadds hunknown] at hlater ⊢
      exact hlater

end Tracker

namespace Observer

def isRecording : Observer → Bool
  | .recording _ => true
  | .broken => false

/-- The observer when it has been told of phases, one after the other. -/
def after (events : List Phase) : Observer → Observer
  | .recording record => .recording (record ++ events)
  | .broken => .broken

theorem after_nil (o : Observer) : o.after [] = o := by
  cases o with
  | recording record => rw [after, List.append_nil]
  | broken => rfl

theorem after_after (events more : List Phase) (o : Observer) :
    (o.after events).after more = o.after (events ++ more) := by
  cases o with
  | recording record => rw [after, after, after, List.append_assoc]
  | broken => rfl

theorem isRecording_after (events : List Phase) (o : Observer) :
    (o.after events).isRecording = o.isRecording := by
  cases o <;> rfl

end Observer

namespace Monitor

/-- A record that begins, with its observers. -/
def watching (c : Clock) (observers : List Observer) : Monitor := ⟨.ofClock c, observers, [], []⟩

def run (m : Monitor) (steps : List PhaseStep) : Monitor := steps.foldl step m

/-- All observers are told, wherever one stands that fails. -/
theorem observers_notify (p : Phase) (os : List Observer) :
    (notify p os).1 = os.map (Observer.after [p]) := by
  induction os with
  | nil => rfl
  | cons o os ih =>
    rw [notify, List.map_cons, ← ih]
    cases o <;> rfl

theorem seen_notify (p : Phase) (os : List Observer) :
    (notify p os).2.1 = List.replicate (os.countP Observer.isRecording) p := by
  induction os with
  | nil => rfl
  | cons o os ih =>
    rw [notify]
    cases o with
    | recording record =>
      rw [List.countP_cons_of_pos rfl, List.replicate_succ, ← ih]
      rfl
    | broken =>
      rw [List.countP_cons_of_neg Bool.false_ne_true, ← ih]
      rfl

theorem tracker_step (m : Monitor) (s : PhaseStep) :
    (m.step s).tracker = (m.tracker.step s).1 := by
  rw [step]
  obtain ⟨t, _ | p⟩ := m.tracker.step s <;> rfl

theorem observers_step (m : Monitor) (s : PhaseStep) :
    (m.step s).observers = m.observers.map (Observer.after (m.tracker.step s).2.toList) := by
  rw [step]
  obtain ⟨t, _ | p⟩ := m.tracker.step s
  · exact (List.map_id'' Observer.after_nil m.observers).symm
  · exact observers_notify p m.observers

theorem seen_step (m : Monitor) (s : PhaseStep) :
    (m.step s).seen = m.seen ++ (m.tracker.step s).2.toList.flatMap
      (List.replicate (m.observers.countP Observer.isRecording)) := by
  rw [step]
  obtain ⟨t, _ | p⟩ := m.tracker.step s
  · exact (List.append_nil _).symm
  · change m.seen ++ (notify p m.observers).2.1 = _
    rw [seen_notify, Option.toList_some, List.flatMap_singleton]

theorem tracker_run (m : Monitor) (steps : List PhaseStep) :
    (m.run steps).tracker = m.tracker.run steps := by
  induction steps generalizing m with
  | nil => rfl
  | cons s steps ih =>
    change ((m.step s).run steps).tracker = _
    rw [ih, tracker_step, Tracker.run_cons]

theorem observers_run (m : Monitor) (steps : List PhaseStep) :
    (m.run steps).observers = m.observers.map (Observer.after (m.tracker.events steps)) := by
  induction steps generalizing m with
  | nil => exact (List.map_id'' Observer.after_nil m.observers).symm
  | cons s steps ih =>
    change ((m.step s).run steps).observers = _
    rw [ih, observers_step, tracker_step, List.map_map, Tracker.events]
    exact List.map_congr_left fun o _ => o.after_after _ _

/-- A monitor beside one that has the same observers but for those that fail. What was logged of
these may differ. -/
structure Undisturbed (m m' : Monitor) : Prop where
  tracker : m'.tracker = m.tracker
  observers : m'.observers = m.observers.filter Observer.isRecording
  seen : m'.seen = m.seen

theorem Undisturbed.step {m m' : Monitor} (h : m.Undisturbed m') (s : PhaseStep) :
    (m.step s).Undisturbed (m'.step s) where
  tracker := by rw [tracker_step, tracker_step, h.tracker]
  observers := by
    have hkind : Observer.isRecording ∘ Observer.after (m.tracker.step s).2.toList =
        Observer.isRecording := funext (Observer.isRecording_after _)
    rw [observers_step, observers_step, h.tracker, h.observers, List.filter_map, hkind]
  seen := by
    have hcount : (m.observers.filter Observer.isRecording).countP Observer.isRecording =
        m.observers.countP Observer.isRecording := by
      rw [List.countP_filter]
      simp only [Bool.and_self]
    rw [seen_step, seen_step, h.tracker, h.observers, h.seen, hcount]

theorem Undisturbed.run {m m' : Monitor} (h : m.Undisturbed m') (steps : List PhaseStep) :
    (m.run steps).Undisturbed (m'.run steps) := by
  induction steps generalizing m m' with
  | nil => exact h
  | cons s steps ih => exact ih (h.step s)

/-- Whatever the steps and the observers are, each observer that keeps a record sees one event for
each start, each skip and each end of a phase that is there, in order, and the event is the phase as
that step has left it. Without the observers that fail, the others see the same, and the phases, the
index and the clock of the record are the same. -/
theorem observers_see_every_change (c : Clock) (observers : List Observer)
    (steps : List PhaseStep) :
    let m := (watching c observers).run steps
    let m' := (watching c (observers.filter Observer.isRecording)).run steps
    (∃ events,
      List.Forall₂
        (fun turn p => ((Tracker.ofClock c).run (turn.1 ++ [turn.2])).get? turn.2.name = some p)
        (PhaseStep.turns [] steps) events ∧
      m.observers = observers.map (Observer.after events)) ∧
    m.tracker = (Tracker.ofClock c).run steps ∧
    m'.tracker = m.tracker ∧ m'.observers = m.observers.filter Observer.isRecording ∧
    m'.seen = m.seen := by
  intro m m'
  have hstart : (watching c observers).Undisturbed
      (watching c (observers.filter Observer.isRecording)) := ⟨rfl, rfl, rfl⟩
  obtain ⟨htracker, hobservers, hseen⟩ := hstart.run steps
  exact ⟨⟨(Tracker.ofClock c).events steps, Tracker.events_run c [] steps,
    observers_run (watching c observers) steps⟩,
    tracker_run (watching c observers) steps, htracker, hobservers, hseen⟩

/-- An observer that fails stands between two that keep records, and the first step ends a phase that
is not there. -/
theorem observers_see_every_change_around_broken :
    let running : Phase := ⟨"a", .running, some .zero, none, "", none⟩
    let completed : Phase := ⟨"a", .completed, some .zero, some .zero, "d", none⟩
    let steps : List PhaseStep := [.fail "a" "e", .start "a", .complete "a" "d"]
    let m := (watching (.ofList []) [.recording [], .broken, .recording []]).run steps
    m.observers =
      [.recording [running, completed], .broken, .recording [running, completed]] ∧
    ((watching (.ofList []) [.recording [], .recording []]).run steps).tracker = m.tracker := by
  intro running completed steps m
  obtain ⟨⟨events, hevents, hobservers⟩, -, htracker, -⟩ :=
    observers_see_every_change (.ofList []) [.recording [], .broken, .recording []] steps
  have hturns : PhaseStep.turns [] steps =
      [([.fail "a" "e"], .start "a"), ([.fail "a" "e", .start "a"], .complete "a" "d")] := by
    decide
  rw [hturns] at hevents
  obtain ⟨first, rest, hfirst, hrest, rfl⟩ := List.forall₂_cons_left_iff.1 hevents
  obtain ⟨second, _, hsecond, hnil, rfl⟩ := List.forall₂_cons_left_iff.1 hrest
  obtain rfl := List.forall₂_nil_left_iff.1 hnil
  obtain rfl : running = first := Option.some.inj hfirst
  obtain rfl : completed = second := Option.some.inj hsecond
  exact ⟨hobservers, htracker⟩

end Monitor

end CallGraph
