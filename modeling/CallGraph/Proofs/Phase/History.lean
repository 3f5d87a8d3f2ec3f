import CallGraph.Phase.Tracker
import Mathlib.Data.List.Induction

/-!
The record of the phases after any history of steps. There is one phase for each start and each skip,
a name means the latest phase that was added under it, and from the moment at which a name is used
again the older phases of that name stay as they are. The times and the error of every phase agree
with its status.
-/

namespace CallGraph

namespace PhaseStep

/-- The name of the phase that a step is about. -/
def name : PhaseStep → String
  | .start name | .skip name _ | .complete name _ | .fail name _ => name

/-- Whether a step adds a phase. The others end one. -/
def adds : PhaseStep → Bool
  | .start _ | .skip .. => true
  | .complete .. | .fail .. => false

/-- The names under which a history adds phases, in order. -/
def added (steps : List PhaseStep) : List String := (steps.filter adds).map name

theorem added_append (steps more : List PhaseStep) :
    added (steps ++ more) = added steps ++ added more := by
  rw [added, List.filter_append, List.map_append, added, added]

theorem added_singleton_of_adds {s : PhaseStep} (h : s.adds = true) : added [s] = [s.name] := by
  rw [added, List.filter_cons_of_pos h, List.filter_nil, List.map_singleton]

theorem added_singleton_of_not_adds {s : PhaseStep} (h : s.adds = false) : added [s] = [] := by
  rw [added, List.filter_cons_of_neg (ne_true_of_eq_false h), List.filter_nil, List.map_nil]

theorem length_added (steps : List PhaseStep) : (added steps).length = steps.countP adds := by
  rw [added, List.length_map, List.countP_eq_length_filter]

end PhaseStep

open PhaseStep (added)

/-- The times and the error of a phase agree with its status. -/
structure Phase.Coherent (p : Phase) : Prop where
  error_iff : p.error.isSome ↔ p.status = .failed
  running_iff : p.status = .running ↔ p.start.isSome ∧ p.stop = none
  skipped_iff : p.status = .skipped ↔ p.start = none ∧ p.stop = none
  stop_iff : p.status = .completed ∨ p.status = .failed ↔ p.stop.isSome
  not_pending : p.status ≠ .pending

namespace Tracker

/-! ### Places of names -/

/-- The last of the names that are `name` stands at a place. -/
def LastAt (names : List String) (name : String) (place : Nat) : Prop :=
  names[place]? = some name ∧ ∀ later, place < later → names[later]? ≠ some name

theorem lastAt_concat_self (names : List String) (name : String) (place : Nat) :
    LastAt (names ++ [name]) name place ↔ place = names.length := by
  constructor
  · rintro ⟨hplace, hlast⟩
    have hlt : place < (names ++ [name]).length := (List.getElem?_eq_some_iff.1 hplace).1
    rw [List.length_append, List.length_singleton] at hlt
    by_contra hne
    exact hlast names.length (by omega) List.getElem?_concat_length
  · rintro rfl
    refine ⟨List.getElem?_concat_length, fun later hlater => ?_⟩
    have hlength : (names ++ [name]).length ≤ later := by
      rw [List.length_append, List.length_singleton]
      exact hlater
    rw [List.getElem?_eq_none hlength]
    exact Option.some_ne_none name |>.symm

theorem lastAt_concat_of_ne {name other : String} (h : other ≠ name) (names : List String)
    (place : Nat) : LastAt (names ++ [other]) name place ↔ LastAt names name place := by
  have hget : ∀ i : Nat, (names ++ [other])[i]? = some name ↔ names[i]? = some name := by
    intro i
    rw [List.getElem?_append]
    split
    · rfl
    next hge =>
      rw [List.getElem?_eq_none (Nat.le_of_not_lt hge), List.getElem?_singleton]
      split <;> simp [h]
  simp only [LastAt, ne_eq, hget]

theorem exists_lastAt {names : List String} {name : String} (h : name ∈ names) :
    ∃ place, LastAt names name place := by
  induction names using List.reverseRecOn with
  | nil => cases h
  | append_singleton names other ih =>
    by_cases hother : other = name
    · rw [hother]
      exact ⟨names.length, (lastAt_concat_self names name _).2 rfl⟩
    · obtain hmem | hmem := List.mem_append.1 h
      · obtain ⟨place, hplace⟩ := ih hmem
        exact ⟨place, (lastAt_concat_of_ne hother names place).2 hplace⟩
      · exact absurd (List.mem_singleton.1 hmem).symm hother

theorem LastAt.mem {names : List String} {name : String} {place : Nat}
    (h : LastAt names name place) : name ∈ names :=
  List.mem_of_getElem? h.1

theorem lookup_pointTo (name : String) (place : Nat) (index : List (String × Nat)) (n : String) :
    (pointTo name place index).lookup n = if n == name then some place else index.lookup n := by
  induction index with
  | nil =>
    rw [pointTo, List.lookup_cons]
    cases n == name <;> rfl
  | cons entry rest ih =>
    obtain ⟨other, i⟩ := entry
    rw [pointTo]
    by_cases hother : other = name
    · subst hother
      rw [if_pos (beq_self_eq_true other), List.lookup_cons, List.lookup_cons]
      cases n == other <;> rfl
    · rw [if_neg (mt eq_of_beq hother), List.lookup_cons, List.lookup_cons, ih]
      by_cases hn : n = other
      · subst hn
        rw [beq_self_eq_true, beq_false_of_ne hother]
        rfl
      · rw [beq_false_of_ne hn]

/-! ### One step -/

def names (t : Tracker) : List String := t.phases.map (·.name)

theorem getElem?_names (t : Tracker) (place : Nat) :
    t.names[place]? = (t.phases[place]?).map (·.name) :=
  List.getElem?_map ..

/-- What a step can do. It adds a phase, or it ends the phase that its name means, or there is no
such phase and it does nothing. -/
inductive Steps (t : Tracker) (s : PhaseStep) : Tracker × Option Phase → Prop where
  | adding {p : Phase} {clock : Clock} (adds : s.adds = true) (name : p.name = s.name)
      (coherent : p.Coherent) : Steps t s ({ t with clock }.add p, some p)
  | ending {place : Nat} {update : Phase → Phase} {clock : Clock} (adds : s.adds = false)
      (found : t.index.lookup s.name = some place) (name : ∀ p, (update p).name = p.name)
      (coherent : ∀ p, (update p).Coherent) :
      Steps t s ({ t with phases := t.phases.modify place update, clock },
        (t.phases.modify place update)[place]?)
  | nothing (adds : s.adds = false) (unknown : t.index.lookup s.name = none) : Steps t s (t, none)

theorem steps_finish (t : Tracker) {s : PhaseStep} (adds : s.adds = false) {status : PhaseStatus}
    {detail : String} {error : Option String}
    (coherent : ∀ p now, (Phase.ended p status now detail error).Coherent) :
    t.Steps s (t.finish s.name status detail error) := by
  rw [finish]
  cases found : t.index.lookup s.name with
  | none => exact .nothing adds found
  | some place => exact .ending adds found (fun _ => rfl) fun p => coherent p _

theorem steps_step (t : Tracker) (s : PhaseStep) : t.Steps s (t.step s) := by
  cases s with
  | start name => exact .adding rfl rfl (by constructor <;> simp)
  | skip name reason => exact .adding rfl rfl (by constructor <;> simp)
  | complete name detail =>
    exact t.steps_finish rfl fun p now => by constructor <;> simp [Phase.ended]
  | fail name error =>
    exact t.steps_finish rfl fun p now => by constructor <;> simp [Phase.ended]

theorem names_add (t : Tracker) (p : Phase) : (t.add p).names = t.names ++ [p.name] := by
  rw [names, add, List.map_append, List.map_singleton, names]

theorem names_modify {t : Tracker} {place : Nat} {f : Phase → Phase} {clock : Clock}
    (h : ∀ p, (f p).name = p.name) :
    names { t with phases := t.phases.modify place f, clock } = t.names := by
  apply List.ext_getElem?
  intro i
  rw [getElem?_names, getElem?_names, List.getElem?_modify]
  cases t.phases[i]? with
  | none => rfl
  | some p =>
    change some _ = some _
    split <;> simp [h]

theorem names_step (t : Tracker) (s : PhaseStep) : (t.step s).1.names = t.names ++ added [s] := by
  have hsteps := t.steps_step s
  generalize t.step s = result at hsteps
  cases hsteps with
  | adding adds name _ =>
    rw [names_add, PhaseStep.added_singleton_of_adds adds, name]
    rfl
  | ending adds _ name _ =>
    rw [names_modify name, PhaseStep.added_singleton_of_not_adds adds, List.append_nil]
  | nothing adds _ => rw [PhaseStep.added_singleton_of_not_adds adds, List.append_nil]

/-- The index gives for each name the place of the latest phase of that name, and every phase is
coherent. -/
structure Sound (t : Tracker) : Prop where
  lookup_iff : ∀ name place, t.index.lookup name = some place ↔ LastAt t.names name place
  coherent : ∀ p ∈ t.phases, p.Coherent

theorem sound_ofClock (c : Clock) : (ofClock c).Sound where
  lookup_iff _ _ := by
    constructor
    · intro h
      cases h
    · rintro ⟨h, -⟩
      cases h
  coherent _ h := by cases h

theorem Sound.add {t : Tracker} (h : t.Sound) {p : Phase} (hp : p.Coherent) (clock : Clock) :
    ({ t with clock }.add p).Sound where
  lookup_iff name place := by
    rw [names_add]
    change (pointTo p.name t.phases.length t.index).lookup name = some place ↔
      LastAt (t.names ++ [p.name]) name place
    rw [lookup_pointTo]
    -- the name of the new phase means it, all others mean what they did
    by_cases hname : name = p.name
    · rw [hname, if_pos (beq_self_eq_true _), lastAt_concat_self, Option.some_inj, eq_comm, names,
        List.length_map]
    · rw [if_neg (mt eq_of_beq hname), lastAt_concat_of_ne (Ne.symm hname)]
      exact h.lookup_iff name place
  coherent q hq := by
    obtain hq | hq := List.mem_append.1 hq
    · exact h.coherent q hq
    · rw [List.mem_singleton.1 hq]
      exact hp

theorem Sound.modify {t : Tracker} (h : t.Sound) {update : Phase → Phase}
    (hname : ∀ p, (update p).name = p.name) (hupdate : ∀ p, (update p).Coherent) (place : Nat)
    (clock : Clock) : Sound { t with phases := t.phases.modify place update, clock } where
  lookup_iff name i := by
    rw [names_modify hname]
    exact h.lookup_iff name i
  coherent q hq := by
    obtain ⟨i, hi⟩ := List.mem_iff_getElem?.1 hq
    rw [List.getElem?_modify] at hi
    obtain ⟨p, hp, rfl⟩ := Option.map_eq_some_iff.1 hi
    split
    · exact hupdate p
    · exact h.coherent p (List.mem_of_getElem? hp)

theorem Sound.step {t : Tracker} (h : t.Sound) (s : PhaseStep) : (t.step s).1.Sound := by
  have hsteps := t.steps_step s
  generalize t.step s = result at hsteps
  cases hsteps with
  | adding adds name coherent => exact h.add coherent _
  | ending adds found name coherent => exact h.modify name coherent _ _
  | nothing => exact h

/-- The place that the index gives for a name is that of a phase. -/
theorem Sound.exists_phase {t : Tracker} (h : t.Sound) {name : String} {place : Nat}
    (hfound : t.index.lookup name = some place) : ∃ p, t.phases[place]? = some p := by
  have hname := ((h.lookup_iff name place).1 hfound).1
  rw [getElem?_names] at hname
  obtain ⟨p, hp, -⟩ := Option.map_eq_some_iff.1 hname
  exact ⟨p, hp⟩

/-- A step leaves every phase as it is but the one that its name means. -/
theorem getElem?_phases_step (t : Tracker) (s : PhaseStep) {place : Nat}
    (hplace : place < t.phases.length) (hother : t.index.lookup s.name ≠ some place) :
    (t.step s).1.phases[place]? = t.phases[place]? := by
  have hsteps := t.steps_step s
  generalize t.step s = result at hsteps
  cases hsteps with
  | adding => exact List.getElem?_append_left hplace
  | @ending i update clock adds found name coherent =>
    have hne : i ≠ place := by
      rintro rfl
      exact hother found
    exact List.getElem?_modify_ne _ _ hne
  | nothing => rfl

/-- A step that ends a phase under a name that no phase has does nothing. -/
theorem Sound.step_unknown {t : Tracker} (h : t.Sound) {s : PhaseStep} (hadds : s.adds = false)
    (hunknown : s.name ∉ t.names) : t.step s = (t, none) := by
  have hsteps := t.steps_step s
  generalize t.step s = result at hsteps
  cases hsteps with
  | adding adds => cases hadds.symm.trans adds
  | ending adds found => exact absurd ((h.lookup_iff _ _).1 found).mem hunknown
  | nothing => rfl

/-- A step that adds a phase, or ends one that is there, changes the phase that its name then
means. -/
theorem Sound.step_known {t : Tracker} (h : t.Sound) {s : PhaseStep}
    (hknown : s.adds = true ∨ s.name ∈ t.names) :
    ∃ p, (t.step s).2 = some p ∧ (t.step s).1.get? s.name = some p := by
  have hsteps := t.steps_step s
  generalize t.step s = result at hsteps
  cases hsteps with
  | @adding p clock adds name coherent =>
    refine ⟨p, rfl, ?_⟩
    rw [get?, Tracker.add, lookup_pointTo, if_pos (beq_iff_eq.2 name.symm)]
    exact List.getElem?_concat_length
  | @ending place update clock adds found name coherent =>
    obtain ⟨p, hp⟩ := h.exists_phase found
    have hupdated : (t.phases.modify place update)[place]? = some (update p) := by
      rw [List.getElem?_modify_eq, hp]
      rfl
    refine ⟨update p, hupdated, ?_⟩
    rw [get?, found]
    exact hupdated
  | nothing adds unknown =>
    have hname : s.name ∈ t.names := hknown.resolve_left (ne_true_of_eq_false adds)
    obtain ⟨place, hplace⟩ := exists_lastAt hname
    rw [(h.lookup_iff _ _).2 hplace] at unknown
    cases unknown

/-! ### Histories -/

/-- The record after the steps of a history. -/
def run (t : Tracker) (steps : List PhaseStep) : Tracker :=
  steps.foldl (fun t s => (t.step s).1) t

theorem run_append (t : Tracker) (steps more : List PhaseStep) :
    t.run (steps ++ more) = (t.run steps).run more :=
  List.foldl_append

theorem run_cons (t : Tracker) (s : PhaseStep) (steps : List PhaseStep) :
    t.run (s :: steps) = (t.step s).1.run steps :=
  rfl

theorem run_concat (t : Tracker) (steps : List PhaseStep) (s : PhaseStep) :
    t.run (steps ++ [s]) = ((t.run steps).step s).1 :=
  t.run_append steps [s]

theorem names_run (t : Tracker) (steps : List PhaseStep) :
    (t.run steps).names = t.names ++ added steps := by
  induction steps generalizing t with
  | nil => exact (List.append_nil _).symm
  | cons s steps ih =>
    rw [run_cons, ih, names_step, List.append_assoc, ← PhaseStep.added_append]
    rfl

theorem names_run_ofClock (c : Clock) (steps : List PhaseStep) :
    ((ofClock c).run steps).names = added steps :=
  names_run (ofClock c) steps

theorem Sound.run {t : Tracker} (h : t.Sound) (steps : List PhaseStep) : (t.run steps).Sound := by
  induction steps generalizing t with
  | nil => exact h
  | cons s steps ih => exact ih (h.step s)

theorem sound_run (c : Clock) (steps : List PhaseStep) : ((ofClock c).run steps).Sound :=
  (sound_ofClock c).run steps

/-- The name of the phase at a place has been used again since. -/
def Superseded (t : Tracker) (place : Nat) : Prop :=
  ∃ name later, t.names[place]? = some name ∧ place < later ∧ t.names[later]? = some name

theorem getElem?_names_step {t : Tracker} {place : Nat} {name : String}
    (h : t.names[place]? = some name) (s : PhaseStep) :
    (t.step s).1.names[place]? = some name := by
  rw [names_step, List.getElem?_append_left (List.getElem?_eq_some_iff.1 h).1]
  exact h

theorem Superseded.step {t : Tracker} {place : Nat} (h : t.Superseded place) (s : PhaseStep) :
    (t.step s).1.Superseded place := by
  obtain ⟨name, later, hplace, hlt, hlater⟩ := h
  exact ⟨name, later, getElem?_names_step hplace s, hlt, getElem?_names_step hlater s⟩

theorem Sound.lookup_ne_of_superseded {t : Tracker} (h : t.Sound) {place : Nat}
    (hplace : t.Superseded place) (name : String) : t.index.lookup name ≠ some place := by
  intro hlookup
  obtain ⟨hname, hlast⟩ := (h.lookup_iff name place).1 hlookup
  obtain ⟨name', later, hname', hlt, hlater⟩ := hplace
  rw [hname, Option.some_inj] at hname'
  rw [← hname'] at hlater
  exact hlast later hlt hlater

/-- A superseded phase stays as it is. -/
theorem Sound.superseded_run {t : Tracker} (h : t.Sound) {place : Nat}
    (hplace : t.Superseded place) (steps : List PhaseStep) :
    (t.run steps).phases[place]? = t.phases[place]? := by
  induction steps generalizing t with
  | nil => rfl
  | cons s steps ih =>
    have hlt : place < t.phases.length := by
      obtain ⟨name, later, hname, -⟩ := hplace
      rw [← List.length_map (·.name)]
      exact (List.getElem?_eq_some_iff.1 hname).1
    rw [run_cons, ih (h.step s) (hplace.step s),
      t.getElem?_phases_step s hlt (h.lookup_ne_of_superseded hplace s.name)]

theorem phases_step_of_adds (t : Tracker) {s : PhaseStep} (h : s.adds = true) :
    ∃ p : Phase, p.name = s.name ∧ (t.step s).1.phases = t.phases ++ [p] := by
  have hsteps := t.steps_step s
  generalize t.step s = result at hsteps
  cases hsteps with
  | @adding p clock adds name coherent => exact ⟨p, name, rfl⟩
  | ending adds => cases adds.symm.trans h
  | nothing adds => cases adds.symm.trans h

/-- When a phase has been added, the older phases of its name stay as they are. -/
theorem Sound.run_of_adds {t : Tracker} (h : t.Sound) {s : PhaseStep} (hadds : s.adds = true)
    (steps : List PhaseStep) {place : Nat} {p : Phase} (hp : t.phases[place]? = some p)
    (hname : p.name = s.name) : (t.run (s :: steps)).phases[place]? = some p := by
  obtain ⟨new, hnew, hphases⟩ := t.phases_step_of_adds hadds
  have hlt : place < t.phases.length := (List.getElem?_eq_some_iff.1 hp).1
  have hkept : (t.step s).1.phases[place]? = some p := by
    rw [hphases, List.getElem?_append_left hlt]
    exact hp
  have hplace : (t.step s).1.Superseded place := by
    refine ⟨s.name, t.phases.length, ?_, hlt, ?_⟩
    · rw [getElem?_names, hkept, Option.map_some, hname]
    · rw [getElem?_names, hphases, List.getElem?_concat_length, Option.map_some, hnew]
  rw [run_cons, (h.step s).superseded_run hplace steps]
  exact hkept

theorem Sound.get?_eq_some_iff {t : Tracker} (h : t.Sound) (name : String) (p : Phase) :
    t.get? name = some p ↔ ∃ place, LastAt t.names name place ∧ t.phases[place]? = some p := by
  rw [get?, Option.bind_eq_some_iff]
  exact exists_congr fun place => and_congr_left fun _ => h.lookup_iff name place

/-- The record after any history: it has one phase for each start and each skip, a name means the
phase that was added last under it, and what was added before that under the same name has stayed as
it was when the name was used again. Every phase is coherent, and to end a phase under a name that
was never used changes nothing, not even the clock. -/
theorem coherent_after_history (c : Clock) (steps : List PhaseStep) :
    let t := (ofClock c).run steps
    (t.phases.length = steps.countP PhaseStep.adds ∧ t.phases.map (·.name) = added steps) ∧
    (∀ name (p : Phase), t.get? name = some p ↔
      ∃ place, LastAt (added steps) name place ∧ t.phases[place]? = some p) ∧
    (∀ earlier s later, steps = earlier ++ s :: later → s.adds = true →
      ∀ (place : Nat) (p : Phase), ((ofClock c).run earlier).phases[place]? = some p →
        p.name = s.name → t.phases[place]? = some p) ∧
    (∀ p ∈ t.phases, p.Coherent) ∧
    ∀ s : PhaseStep, s.adds = false → s.name ∉ added steps → t.step s = (t, none) := by
  intro t
  have hsound : t.Sound := sound_run c steps
  have hnames : t.names = added steps := names_run_ofClock c steps
  refine ⟨⟨?_, hnames⟩, ?_, ?_, hsound.coherent, ?_⟩
  · rw [← PhaseStep.length_added, ← hnames, names, List.length_map]
  · intro name p
    rw [← hnames]
    exact hsound.get?_eq_some_iff name p
  · intro earlier s later hsteps hadds place p hp hname
    have ht : t = ((ofClock c).run earlier).run (s :: later) := by
      rw [← run_append, ← hsteps]
    rw [ht]
    exact (sound_run c earlier).run_of_adds hadds later hp hname
  · intro s hadds hunknown
    rw [← hnames] at hunknown
    exact hsound.step_unknown hadds hunknown

/-- A phase is started again under its name before it has ended, and then it ends twice. -/
theorem coherent_after_history_restarted :
    let one : Binary64 := .finite false 1 0
    let steps : List PhaseStep :=
      [.start "a", .start "a", .fail "a" "e", .skip "b" "r", .complete "a" "d", .complete "b" ""]
    let t := (ofClock (.ofList [.zero, one])).run steps
    t.phases[0]? = some ⟨"a", .running, some .zero, none, "", none⟩ ∧
    t.get? "a" = some ⟨"a", .completed, some one, some one, "d", none⟩ ∧
    t.phases.length = 3 ∧ (∀ p ∈ t.phases, p.Coherent) ∧ t.step (.fail "c" "e") = (t, none) := by
  intro one steps t
  obtain ⟨⟨hlength, -⟩, hget, hkept, hcoherent, hunknown⟩ :=
    coherent_after_history (.ofList [.zero, one]) steps
  have hlast : LastAt (added steps) "a" 1 := by
    refine ⟨rfl, fun later hlater => ?_⟩
    obtain rfl | hlater := Nat.eq_or_lt_of_le hlater
    · decide
    · rw [List.getElem?_eq_none (show (added steps).length ≤ later from hlater)]
      exact (Option.some_ne_none "a").symm
  refine ⟨?_, ?_, hlength, hcoherent, hunknown _ rfl (by decide)⟩
  · exact hkept [.start "a"] (.start "a") _ rfl rfl 0 _ rfl rfl
  · exact (hget "a" _).2 ⟨1, hlast, rfl⟩

end Tracker

end CallGraph
