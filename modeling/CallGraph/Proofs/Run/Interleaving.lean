import CallGraph.Proofs.Run.Units
import Mathlib.Data.List.Nodup

/-!
Compiling side by side. Each source is compiled in two steps: the compiler is run, then its output
is looked for. Schedules tell in which order the steps of different sources are taken. When no run
of the compiler touches what another source looks at, every schedule ends as compiling the sources
one after the other does: with the same paths, the same failures in the same order and the same
files.
-/

namespace CallGraph

open Session (standing)

/-! ## Sessions that look the same -/

namespace Entry.Alike

variable {top other : Entry} (halike : top.Alike other)
include halike

theorem shell_place (p : Path) : (other.place p).shell = (top.place p).shell :=
  place_congr fun m _ => (halike m).symm

theorem isDir (htop : top.isDir = true) : other.isDir = true :=
  Keeps.isDir (fun m hm => (halike m).symm.trans hm) htop

theorem read_eq (p : Path) : other.read p = top.read p := read_congr (halike.shell_place p)

variable (htop : top.isDir = true)
include htop

theorem cleared (path : Path) : (top.cleared path).Alike (other.cleared path) := by
  intro m
  have hshell := halike.shell_place path
  by_cases hfile : top.FileAt path m
  · rw [seen_cleared_of_fileAt htop hfile,
      seen_cleared_of_fileAt (halike.isDir htop) ((fileAt_congr hshell).2 hfile)]
  · rw [seen_cleared_of_not_fileAt htop hfile,
      seen_cleared_of_not_fileAt (halike.isDir htop) (mt (fileAt_congr hshell).1 hfile), halike]

theorem shows {top' : Entry} {findings : List (Path × Finding)} (hshows : top.Shows findings top') :
    ∃ other', other.Shows findings other' ∧ top'.Alike other' := by
  induction hshows generalizing other with
  | nil => exact ⟨other, .nil other, halike⟩
  | @cons top _ top' path finding findings hfirst hrest ih =>
    obtain ⟨hfinding, rfl⟩ := hfirst
    obtain ⟨other', hshows', halike'⟩ := ih (halike.cleared htop path) (isDir_cleared htop path)
    rw [← halike.read_eq] at hfinding
    exact ⟨other', .cons ⟨hfinding, rfl⟩ hshows', halike'⟩

theorem write {written : Entry} {p : Path} {bytes : ByteArray}
    (hwrite : top.write p bytes = .ok written) :
    ∃ written', other.write p bytes = .ok written' ∧ written.Alike written' := by
  obtain ⟨hzero, names, hopen, rfl⟩ := write_eq_ok hwrite
  have hopen' := (openAt_congr (halike.shell_place p)).2 hopen
  refine ⟨_, write_of_openAt hzero hopen' bytes, fun m => ?_⟩
  rw [seen_put_of_openAt htop hopen rfl, seen_put_of_openAt (halike.isDir htop) hopen' rfl, halike]

end Entry.Alike

/-- The same tools and failures, and files that look the same. -/
structure Standing.Alike (v₁ v₂ : Standing) : Prop where
  isDir : v₁.scene.files.isDir = true
  tools_eq : v₁.scene.tools = v₂.scene.tools
  failures_eq : v₁.failures = v₂.failures
  files : v₁.scene.files.Alike v₂.scene.files

/-- Sessions that differ at most in the log, the order of the commands and the record of the
phases. -/
def Session.Alike (s₁ s₂ : Session) : Prop := s₁.standing.Alike s₂.standing

namespace Session.Alike

variable {s₁ s₂ : Session} (halike : s₁.Alike s₂)
include halike

theorem symm : s₂.Alike s₁ where
  isDir := halike.files.isDir halike.isDir
  tools_eq := halike.tools_eq.symm
  failures_eq := halike.failures_eq.symm
  files m := (halike.files m).symm

theorem sortOut (results : List (Path × Except CompileError Path)) :
    ∃ paths t₁ t₂, (Run.sortOut results).run s₁ = (.ok paths, t₁) ∧
      (Run.sortOut results).run s₂ = (.ok paths, t₂) ∧ t₁.Alike t₂ := by
  obtain ⟨t₁, hrun₁, hstanding₁⟩ := (Run.has_sortOut results).complete (s := s₁) ⟨rfl, rfl⟩
  obtain ⟨t₂, hrun₂, hstanding₂⟩ := (Run.has_sortOut results).complete (s := s₂) ⟨rfl, rfl⟩
  refine ⟨_, t₁, t₂, hrun₁, hrun₂, ?_⟩
  rw [Alike, hstanding₁, hstanding₂]
  exact ⟨halike.isDir, halike.tools_eq, congrArg (· ++ _) halike.failures_eq, halike.files⟩

/-- The rest of a run makes no difference between sessions that look the same. -/
theorem conclude {plan : Plan} {sourceCount : Nat} {paths : List Path} {outcome : Outcome}
    {t₁ : Session} (hrun : (Run.conclude plan sourceCount paths).run s₁ = (.ok outcome, t₁)) :
    ∃ t₂, (Run.conclude plan sourceCount paths).run s₂ = (.ok outcome, t₂) ∧ t₁.Alike t₂ := by
  obtain ⟨findings, extracted, written, hpaths, hshows, hwrite, himage, rfl, hstanding₁⟩ :=
    (Run.has_conclude plan sourceCount paths).sound hrun
  have hextracted := hshows.isDir halike.isDir
  obtain ⟨extracted', hshows', hextracted'⟩ := halike.files.shows halike.isDir hshows
  obtain ⟨written', hwrite', hwritten'⟩ := hextracted'.write hextracted hwrite
  rw [halike.tools_eq] at himage
  obtain ⟨t₂, hrun₂, hstanding₂⟩ := (Run.has_conclude plan sourceCount paths).complete (s := s₂)
    ⟨findings, extracted', written', hpaths, hshows', hwrite', himage, rfl, rfl⟩
  refine ⟨t₂, by rw [hrun₂, halike.failures_eq], ?_⟩
  rw [Alike, hstanding₁, hstanding₂]
  exact ⟨Entry.isDir_of_write hextracted hwrite, halike.tools_eq,
    congrArg (· ++ _) halike.failures_eq, hwritten'⟩

end Session.Alike

namespace Run

/-! ## Schedules -/

/-- How far compiling a source has come. -/
inductive Task where
  | waiting
  | ended (ending : Ending)
  | finished (result : Except Fault (Except CompileError Path))

/-- The next step in compiling a source. -/
def advance (c : Compiler) (source : Path) : Task → RunM Task
  | .waiting => do
    match ← compileTogether.observing (lift (c.launch source)) with
    | .ok ending => return .ended ending
    | .error fault => return .finished (.error fault)
  | .ended ending => do
    let result ← compileTogether.observing (lift (c.judge source ending))
    return .finished result
  | .finished result => return .finished result

/-- A step for the source with this number, if there is one. -/
def turn (c : Compiler) : Nat → List (Path × Task) → RunM (List (Path × Task))
  | _, [] => return []
  | 0, (source, task) :: tasks => do
    let task ← advance c source task
    return (source, task) :: tasks
  | n + 1, row :: tasks => do
    let tasks ← turn c n tasks
    return row :: tasks

def turns (c : Compiler) : List Nat → List (Path × Task) → RunM (List (Path × Task))
  | [], tasks => return tasks
  | n :: schedule, tasks => do
    let tasks ← turn c n tasks
    turns c schedule tasks

/-- What is left to do for a source. -/
def finish (c : Compiler) (source : Path) : Task → RunM (Except Fault (Except CompileError Path))
  | .waiting => compileTogether.observing (lift (c.compile source))
  | .ended ending => compileTogether.observing (lift (c.judge source ending))
  | .finished result => return result

def finishAll (c : Compiler) :
    List (Path × Task) → RunM (List (Path × Except Fault (Except CompileError Path)))
  | [] => return []
  | (source, task) :: tasks => do
    let result ← finish c source task
    let results ← finishAll c tasks
    return (source, result) :: results

/-- The results in the order of the sources, or the first fault. -/
def gather {α : Type} : List (Path × Except Fault α) → Except Fault (List (Path × α))
  | [] => .ok []
  | (source, result) :: rows => do
    let a ← result
    let others ← gather rows
    return (source, a) :: others

/-- The outcomes of compiling the sources, when steps are taken in the order of the schedule. What
is not done then is done in the order of the sources. -/
def compileInterleaved (c : Compiler) (schedule : List Nat) (sources : List Path) :
    RunM (List (Path × Except CompileError Path)) := do
  let tasks ← turns c schedule (sources.map fun source => (source, .waiting))
  let results ← finishAll c tasks
  MonadExcept.ofExcept (gather results)

/-- As `compileAll`, with a schedule for sources that are compiled side by side. -/
def compileScheduled (c : Compiler) (jobs : Int) (schedule : List Nat) (sources : List Path) :
    RunM (List Path) := do
  let results ← if 1 < jobs then compileInterleaved c schedule sources else compileInTurn c sources
  sortOut results

theorem observing_run {α : Type} (x : RunM α) (s : Session) :
    (compileTogether.observing x).run s = (.ok (x.run s).1, (x.run s).2) :=
  observing_run_eq_ok.2 rfl

/-- Compiling side by side is finishing all that waits and gathering what it gave. -/
theorem compileTogether_run (c : Compiler) (sources : List Path) (s : Session) :
    ∃ results s', (finishAll c (sources.map fun source => (source, .waiting))).run s =
        (.ok results, s') ∧ (compileTogether c sources).run s = (gather results, s') := by
  induction sources generalizing s with
  | nil => exact ⟨[], s, rfl, rfl⟩
  | cons source sources ih =>
    obtain ⟨results, s', hfinish, htogether⟩ := ih ((lift (c.compile source)).run s).2
    refine ⟨(source, ((lift (c.compile source)).run s).1) :: results, s', ?_, ?_⟩
    · rw [List.map_cons, finishAll, run_bind, finish, observing_run]
      dsimp only
      rw [run_bind, hfinish]
      rfl
    · rw [compileTogether, run_bind, observing_run]
      dsimp only
      rw [run_bind, observing_run, htogether, gather]
      generalize ((lift (c.compile source)).run s).1 = result
      cases result with
      | error fault => rfl
      | ok result =>
        generalize gather results = others
        cases others with
        | error fault => rfl
        | ok results => rfl

/-- Without a schedule each source is compiled in one go. -/
theorem compileInterleaved_nil (c : Compiler) (sources : List Path) (s : Session) :
    (compileInterleaved c [] sources).run s = (compileTogether c sources).run s := by
  obtain ⟨results, s', hfinish, htogether⟩ := compileTogether_run c sources s
  rw [htogether, compileInterleaved, turns]
  change ((finishAll c _) >>= fun results => MonadExcept.ofExcept (gather results)).run s = _
  rw [run_bind, hfinish]
  dsimp only
  cases gather results <;> rfl

theorem compileScheduled_nil (c : Compiler) (jobs : Int) (sources : List Path) (s : Session) :
    (compileScheduled c jobs [] sources).run s = (compileAll c jobs sources).run s := by
  rw [compileScheduled, compileAll]
  split
  case isTrue => rw [run_bind, run_bind, compileInterleaved_nil]
  case isFalse => rfl

end Run

/-! ## Independent sources -/

/-- What is looked at on the way to the output of a source. -/
def Entry.trail (files : Entry) (source : Path) : List (List String) :=
  files.visited (World.corePath source.parent source)

/-- Sources that do not get into each other's way. Each has an output of its own. A run of the
compiler touches only the output of its source: as `apart` says this, whatever it leaves is not seen
on the way to the output of another source. Compiling a source gives a path or an error. -/
structure Compiler.Independent (c : Compiler) (tools : Toolbox) (files : Entry)
    (sources : List Path) : Prop where
  distinct : (sources.map fun source => World.corePath source.parent source).Nodup
  apart {source other : Path} {ending : Ending} {files' : Entry} : source ∈ sources →
    other ∈ sources → source ≠ other → tools.Ends source files ending files' →
    ∀ m ∈ files.trail other, files'.seen m = files.seen m
  compiles : ∀ source ∈ sources, ∃ result files', c.Compiles tools source files result files'

theorem mem_middle {α : Type} {before after : List α} {x y : α} :
    y ∈ before ++ x :: after ↔ y = x ∨ y ∈ before ++ after :=
  List.perm_middle.mem_iff.trans List.mem_cons

/-- Rows are determined by their keys if what goes with a key is. -/
theorem eq_of_keys {α β : Type} {rows rows' : List (α × β)}
    (hkeys : rows.map (·.1) = rows'.map (·.1))
    (h : ∀ a b b', (a, b) ∈ rows → (a, b') ∈ rows' → b = b') : rows = rows' := by
  induction rows generalizing rows' with
  | nil =>
    rw [List.map_nil, eq_comm, List.map_eq_nil_iff] at hkeys
    exact hkeys.symm
  | cons row rows ih =>
    cases rows' with
    | nil => cases hkeys
    | cons row' rows' =>
      rw [List.map_cons, List.map_cons, List.cons.injEq] at hkeys
      obtain ⟨a, b⟩ := row
      obtain ⟨_, b'⟩ := row'
      obtain ⟨rfl, hkeys⟩ := hkeys
      rw [h _ _ _ List.mem_cons_self List.mem_cons_self, ih hkeys fun a b b' hb hb' =>
        h a b b' (List.mem_cons_of_mem _ hb) (List.mem_cons_of_mem _ hb')]

namespace Run

open Entry

/-- The stage of a task, and the files as they would be if its source alone had come so far. -/
inductive Task.Stage (c : Compiler) (tools : Toolbox) (files : Entry) (source : Path) :
    Task → Entry → Prop
  | waiting : Stage c tools files source .waiting files
  | ended {ending : Ending} {alone : Entry} (hends : tools.Ends source files ending alone) :
    Stage c tools files source (.ended ending) alone
  | finished {result : Except CompileError Path} {alone : Entry}
    (hcompiles : c.Compiles tools source files result alone) :
    Stage c tools files source (.finished (.ok result)) alone

/-- The files while tasks are under way. Each task sees them as if there were no other, and what no
task looks at is as it was. -/
structure Blend (c : Compiler) (tools : Toolbox) (files : Entry) (tasks : List (Path × Task))
    (top : Entry) : Prop where
  isDir : top.isDir = true
  own : ∀ row ∈ tasks, ∃ alone, row.2.Stage c tools files row.1 alone ∧
    ∀ m ∈ files.trail row.1, top.seen m = alone.seen m
  rest : ∀ m, (∀ row ∈ tasks, m ∉ files.trail row.1) → top.seen m = files.seen m

namespace Blend

variable {c : Compiler} {tools : Toolbox} {files top : Entry}

theorem start (c : Compiler) (tools : Toolbox) (hdir : files.isDir = true) (sources : List Path) :
    Blend c tools files (sources.map fun source => (source, .waiting)) files where
  isDir := hdir
  own row hrow := by
    obtain ⟨source, -, rfl⟩ := List.mem_map.1 hrow
    exact ⟨files, .waiting, fun _ _ => rfl⟩
  rest _ _ := rfl

variable {before after : List (Path × Task)} {source : Path} {ending : Ending}

theorem replace {task task' : Task} {top' alone : Entry}
    (hblend : Blend c tools files (before ++ (source, task) :: after) top)
    (hdir : top'.isDir = true) (hstage : task'.Stage c tools files source alone)
    (hown : ∀ m ∈ files.trail source, top'.seen m = alone.seen m)
    (hothers : ∀ row ∈ before ++ after, ∀ m ∈ files.trail row.1, top'.seen m = top.seen m)
    (hrest : ∀ m, m ∉ files.trail source → top'.seen m = top.seen m) :
    Blend c tools files (before ++ (source, task') :: after) top' where
  isDir := hdir
  own row hrow := by
    rcases mem_middle.1 hrow with rfl | hrow
    · exact ⟨alone, hstage, hown⟩
    · obtain ⟨alone', hstage', hown'⟩ :=
        hblend.own row (mem_middle.2 (.inr hrow))
      exact ⟨alone', hstage', fun m hm => (hothers row hrow m hm).trans (hown' m hm)⟩
  rest m hm := by
    have hmiss : ∀ row ∈ before ++ (source, task) :: after, m ∉ files.trail row.1 := by
      intro row hrow
      rcases mem_middle.1 hrow with rfl | hrow
      · exact hm (source, task') (mem_middle.2 (.inl rfl))
      · exact hm row (mem_middle.2 (.inr hrow))
    rw [← hblend.rest m hmiss]
    exact hrest m (hm (source, task') (mem_middle.2 (.inl rfl)))

/-- A run of the compiler for a source ends as if no other source had been compiled. -/
theorem launch {alone : Entry}
    (hblend : Blend c tools files (before ++ (source, .waiting) :: after) top)
    (hdir : files.isDir = true) (hends : tools.Ends source files ending alone)
    (hapart : ∀ row ∈ before ++ after, ∀ m ∈ files.trail row.1, alone.seen m = files.seen m) :
    ∃ top', tools.Ends source top ending top' ∧
      Blend c tools files (before ++ (source, .ended ending) :: after) top' := by
  obtain ⟨_, hstage, hown⟩ :=
    hblend.own (source, .waiting) (mem_middle.2 (.inl rfl))
  cases hstage
  obtain ⟨change, heffect⟩ := Behaviour.RunsTo.exists_effect hends
  obtain ⟨_, halone, hseen⟩ := heffect.runs hdir rfl
  obtain ⟨-, rfl⟩ := Compiler.ends_unique hends halone
  obtain ⟨top', hends', hseen'⟩ := heffect.runs hblend.isDir (place_congr hown)
  -- The change is on the trail of the source, where it is the same for both.
  have hon : ∀ m ∈ files.trail source, top'.seen m = alone.seen m := by
    intro m hm
    rw [hseen', hseen, after_congr (hown m hm)]
  have hoff : ∀ m, m ∉ files.trail source → top'.seen m = top.seen m := by
    intro m hm
    rw [hseen']
    cases change with
    | none => rfl
    | some change =>
      refine if_neg ?_
      rintro rfl
      exact hm (mem_visited_of_openAt (heffect.openAt rfl))
  refine ⟨top', hends', hblend.replace (Behaviour.RunsTo.isDir hends' hblend.isDir) (.ended hends)
    hon (fun row hrow m hm => ?_) hoff⟩
  by_cases htrail : m ∈ files.trail source
  · rw [hon m htrail, hapart row hrow m hm, hown m htrail]
  · exact hoff m htrail

/-- The output is found just if it would be found when no other source is compiled. -/
theorem judge {result : Except CompileError Path} {alone : Entry}
    (hblend : Blend c tools files (before ++ (source, .ended ending) :: after) top)
    (hdir : files.isDir = true) (hcompiles : c.Compiles tools source files result alone) :
    c.Judges source top ending result ∧
      Blend c tools files (before ++ (source, .finished (.ok result)) :: after) top := by
  obtain ⟨_, hstage, hown⟩ :=
    hblend.own (source, .ended ending) (mem_middle.2 (.inl rfl))
  obtain ⟨ending', hends', hjudges⟩ := id hcompiles
  cases hstage with
  | ended hends =>
    obtain ⟨rfl, rfl⟩ := Compiler.ends_unique hends hends'
    refine ⟨hjudges.congr (place_congr fun m hm => hown m (hends.mem_visited hdir hm)), ?_⟩
    exact hblend.replace hblend.isDir (.finished hcompiles) hown (fun _ _ _ _ => rfl)
      fun _ _ => rfl

/-- When all is finished, what there is depends on the sources only. -/
theorem unique {results results' : List (Path × Except CompileError Path)} {top' : Entry}
    (h : Blend c tools files (results.map fun row => (row.1, .finished (.ok row.2))) top)
    (h' : Blend c tools files (results'.map fun row => (row.1, .finished (.ok row.2))) top')
    (hkeys : results.map (·.1) = results'.map (·.1)) : results = results' ∧ top.Alike top' := by
  have hfinished {results : List (Path × Except CompileError Path)} {top : Entry}
      (h : Blend c tools files (results.map fun row => (row.1, .finished (.ok row.2))) top)
      {row : Path × Except CompileError Path} (hrow : row ∈ results) :
      ∃ alone, c.Compiles tools row.1 files row.2 alone ∧
        ∀ m ∈ files.trail row.1, top.seen m = alone.seen m := by
    obtain ⟨alone, hstage, hown⟩ := h.own _ (List.mem_map.2 ⟨row, hrow, rfl⟩)
    cases hstage with
    | finished hcompiles => exact ⟨alone, hcompiles, hown⟩
  have hresults : results = results' := by
    refine eq_of_keys hkeys fun source r r' hr hr' => ?_
    obtain ⟨_, hcompiles, -⟩ := hfinished h hr
    obtain ⟨_, hcompiles', -⟩ := hfinished h' hr'
    exact (c.compiles_det tools files source _ _ _ _ hcompiles hcompiles').1
  subst hresults
  refine ⟨rfl, fun m => ?_⟩
  by_cases hm : ∃ row ∈ results, m ∈ files.trail row.1
  · obtain ⟨row, hrow, hm⟩ := hm
    obtain ⟨alone, hcompiles, hown⟩ := hfinished h hrow
    obtain ⟨alone', hcompiles', hown'⟩ := hfinished h' hrow
    obtain ⟨-, rfl⟩ := c.compiles_det tools files row.1 _ _ _ _ hcompiles hcompiles'
    rw [hown m hm, hown' m hm]
  · have hmiss : ∀ row ∈ results.map fun row => (row.1, Task.finished (.ok row.2)),
        m ∉ files.trail row.1 := by
      intro row hrow hmem
      obtain ⟨row', hrow', rfl⟩ := List.mem_map.1 hrow
      exact hm ⟨row', hrow', hmem⟩
    rw [h.rest m hmiss, h'.rest m hmiss]

end Blend

/-! ## Runs of a schedule -/

/-- A session in which the sources are being compiled, since `s₀`. -/
structure Midway (c : Compiler) (s₀ : Session) (sources : List Path) (tasks : List (Path × Task))
    (s : Session) : Prop where
  sources_eq : tasks.map (·.1) = sources
  tools_eq : s.world.tools = s₀.world.tools
  failures_eq : s.failures = s₀.failures
  blend : Blend c s₀.world.tools s₀.world.files tasks s.world.files

section Independent

variable {c : Compiler} {s₀ s : Session} {sources : List Path}
  (hindep : c.Independent s₀.world.tools s₀.world.files sources)
  (hdir : s₀.world.files.isDir = true)

namespace Midway

variable {before after : List (Path × Task)} {source : Path}

/-- A step changes the files and the task of its source. -/
theorem replace {task task' : Task} {s' : Session} {top' : Entry} {commands : List Command}
    (hmid : Midway c s₀ sources (before ++ (source, task) :: after) s)
    (hstanding : s'.standing = ⟨⟨top', s.world.tools, commands⟩, s.failures⟩)
    (hblend : Blend c s₀.world.tools s₀.world.files (before ++ (source, task') :: after) top') :
    Midway c s₀ sources (before ++ (source, task') :: after) s' where
  sources_eq := by
    rw [← hmid.sources_eq, List.map_append, List.map_append, List.map_cons, List.map_cons]
  tools_eq := (congrArg (·.scene.tools) hstanding).trans hmid.tools_eq
  failures_eq := (congrArg (·.failures) hstanding).trans hmid.failures_eq
  blend := by
    rw [show s'.world.files = top' from congrArg (·.scene.files) hstanding]
    exact hblend

include hindep

theorem exists_compiles {task : Task}
    (hmid : Midway c s₀ sources (before ++ (source, task) :: after) s) :
    ∃ ending result alone, s₀.world.tools.Ends source s₀.world.files ending alone ∧
      c.Compiles s₀.world.tools source s₀.world.files result alone ∧
      ∀ row ∈ before ++ after, ∀ m ∈ s₀.world.files.trail row.1,
        alone.seen m = s₀.world.files.seen m := by
  have hkeys := hmid.sources_eq
  have hnodup : ((before ++ (source, task) :: after).map (·.1)).Nodup := by
    rw [hkeys]
    exact .of_map _ hindep.distinct
  have hmem {row : Path × Task} (hrow : row ∈ before ++ (source, task) :: after) :
      row.1 ∈ sources := hkeys ▸ List.mem_map.2 ⟨row, hrow, rfl⟩
  have hsource := hmem (mem_middle.2 (.inl rfl))
  obtain ⟨result, alone, hcompiles⟩ := hindep.compiles source hsource
  obtain ⟨ending, hends, -⟩ := id hcompiles
  refine ⟨ending, result, alone, hends, hcompiles, fun row hrow => ?_⟩
  refine hindep.apart hsource
    (hmem (mem_middle.2 (.inr hrow))) ?_ hends
  rintro rfl
  rw [List.map_append, List.map_cons, List.nodup_middle, List.nodup_cons, ← List.map_append]
    at hnodup
  exact hnodup.1 (List.mem_map.2 ⟨row, hrow, rfl⟩)

include hdir

theorem judge {ending : Ending}
    (hmid : Midway c s₀ sources (before ++ (source, .ended ending) :: after) s) :
    ∃ result s', (compileTogether.observing (lift (c.judge source ending))).run s =
        (.ok (.ok result), s') ∧
      Midway c s₀ sources (before ++ (source, .finished (.ok result)) :: after) s' := by
  obtain ⟨_, result, alone, -, hcompiles, -⟩ := hmid.exists_compiles hindep
  obtain ⟨hjudges, hblend⟩ := hmid.blend.judge hdir hcompiles
  obtain ⟨s', hrun, hstanding⟩ :=
    (has_lift (c.has_judge source ending)).complete (s := s) ⟨_, ⟨hjudges, rfl⟩, rfl⟩
  exact ⟨result, s', observing_run_eq_ok.2 hrun, hmid.replace hstanding hblend⟩

theorem advance {task : Task}
    (hmid : Midway c s₀ sources (before ++ (source, task) :: after) s) :
    ∃ task' s', (advance c source task).run s = (.ok task', s') ∧
      Midway c s₀ sources (before ++ (source, task') :: after) s' := by
  cases task with
  | waiting =>
    obtain ⟨ending, _, alone, hends, -, hapart⟩ := hmid.exists_compiles hindep
    obtain ⟨top', hends', hblend⟩ := hmid.blend.launch hdir hends hapart
    rw [← hmid.tools_eq] at hends'
    obtain ⟨s', hrun, hstanding⟩ :=
      (has_lift (c.has_launch source)).complete (s := s) ⟨_, ⟨top', hends', rfl⟩, rfl⟩
    refine ⟨.ended ending, s', ?_, hmid.replace hstanding hblend⟩
    rw [Run.advance, run_bind, observing_run, hrun]
    rfl
  | ended ending =>
    obtain ⟨result, s', hrun, hmid'⟩ := hmid.judge hindep hdir
    refine ⟨.finished (.ok result), s', ?_, hmid'⟩
    rw [Run.advance, run_bind, hrun]
    rfl
  | finished result => exact ⟨.finished result, s, rfl, hmid⟩

theorem finish {task : Task}
    (hmid : Midway c s₀ sources (before ++ (source, task) :: after) s) :
    ∃ result s', (finish c source task).run s = (.ok (.ok result), s') ∧
      Midway c s₀ sources (before ++ (source, .finished (.ok result)) :: after) s' := by
  cases task with
  | waiting =>
    obtain ⟨ending, result, alone, hends, hcompiles, hapart⟩ := hmid.exists_compiles hindep
    obtain ⟨top', hends', hlaunched⟩ := hmid.blend.launch hdir hends hapart
    obtain ⟨hjudges, hblend⟩ := hlaunched.judge hdir hcompiles
    rw [← hmid.tools_eq] at hends'
    obtain ⟨s', hrun, hstanding⟩ := (has_lift (c.has_compile source)).complete (s := s)
      ⟨_, ⟨top', ⟨ending, hends', hjudges⟩, rfl⟩, rfl⟩
    exact ⟨result, s', observing_run_eq_ok.2 hrun, hmid.replace hstanding hblend⟩
  | ended ending => exact hmid.judge hindep hdir
  | finished result =>
    obtain ⟨_, hstage, -⟩ :=
      hmid.blend.own (source, .finished result) (mem_middle.2 (.inl rfl))
    cases hstage
    exact ⟨_, s, rfl, hmid⟩

theorem turn (n : Nat) (before : List (Path × Task)) {tasks : List (Path × Task)}
    (hmid : Midway c s₀ sources (before ++ tasks) s) :
    ∃ tasks' s', (turn c n tasks).run s = (.ok tasks', s') ∧
      Midway c s₀ sources (before ++ tasks') s' := by
  induction tasks generalizing n before with
  | nil => exact ⟨[], s, by rw [Run.turn]; rfl, hmid⟩
  | cons row tasks ih =>
    cases n with
    | zero =>
      obtain ⟨task, s', hrun, hmid'⟩ := hmid.advance hindep hdir
      refine ⟨(row.1, task) :: tasks, s', ?_, hmid'⟩
      rw [Run.turn, run_bind, hrun]
      rfl
    | succ n =>
      rw [List.append_cons] at hmid
      obtain ⟨tasks', s', hrun, hmid'⟩ := ih n _ hmid
      rw [← List.append_cons] at hmid'
      refine ⟨row :: tasks', s', ?_, hmid'⟩
      rw [Run.turn, run_bind, hrun]
      rfl

theorem turns (schedule : List Nat) {tasks : List (Path × Task)}
    (hmid : Midway c s₀ sources tasks s) :
    ∃ tasks' s', (turns c schedule tasks).run s = (.ok tasks', s') ∧
      Midway c s₀ sources tasks' s' := by
  induction schedule generalizing tasks s with
  | nil => exact ⟨tasks, s, rfl, hmid⟩
  | cons n schedule ih =>
    obtain ⟨tasks₁, s₁, hturn, hmid₁⟩ := hmid.turn hindep hdir n []
    obtain ⟨tasks₂, s₂, hturns, hmid₂⟩ := ih hmid₁
    refine ⟨tasks₂, s₂, ?_, hmid₂⟩
    rw [Run.turns, run_bind, hturn]
    exact hturns

theorem finishAll (before : List (Path × Task)) {tasks : List (Path × Task)}
    (hmid : Midway c s₀ sources (before ++ tasks) s) :
    ∃ (results : List (Path × Except CompileError Path)) (s' : Session), (finishAll c tasks).run s =
        (.ok (results.map fun row => (row.1, .ok row.2)), s') ∧
      Midway c s₀ sources
        (before ++ results.map fun row => (row.1, .finished (.ok row.2))) s' := by
  induction tasks generalizing s before with
  | nil => exact ⟨[], s, rfl, hmid⟩
  | cons row tasks ih =>
    obtain ⟨result, s₁, hfinish, hmid₁⟩ := hmid.finish hindep hdir
    rw [List.append_cons] at hmid₁
    obtain ⟨results, s₂, hall, hmid₂⟩ := ih _ hmid₁
    rw [← List.append_cons] at hmid₂
    refine ⟨(row.1, result) :: results, s₂, ?_, hmid₂⟩
    rw [Run.finishAll, run_bind, hfinish]
    dsimp only
    rw [run_bind, hall]
    rfl

end Midway

theorem gather_ok {α : Type} (rows : List (Path × α)) :
    gather (rows.map fun row => (row.1, .ok row.2)) = .ok rows := by
  induction rows with
  | nil => rfl
  | cons row rows ih =>
    rw [List.map_cons, gather, ih]
    rfl

include hindep hdir

/-- Every schedule ends with a result for each source and with files that blend them. -/
theorem compileInterleaved_run (schedule : List Nat) :
    ∃ results s', (compileInterleaved c schedule sources).run s₀ = (.ok results, s') ∧
      Midway c s₀ sources (results.map fun row => (row.1, .finished (.ok row.2))) s' := by
  have hstart : Midway c s₀ sources (sources.map fun source => (source, .waiting)) s₀ :=
    ⟨by rw [List.map_map]; exact List.map_id sources, rfl, rfl, .start c _ hdir sources⟩
  obtain ⟨tasks, s₁, hturns, hmid₁⟩ := hstart.turns hindep hdir schedule
  obtain ⟨results, s₂, hfinish, hmid₂⟩ := hmid₁.finishAll hindep hdir []
  refine ⟨results, s₂, ?_, hmid₂⟩
  rw [compileInterleaved, run_bind, hturns]
  dsimp only
  rw [run_bind, hfinish]
  dsimp only
  rw [gather_ok]
  rfl

/-- Two schedules give the same results and leave the same files. -/
theorem compileInterleaved_alike (schedule schedule' : List Nat) :
    ∃ results s₁ s₂, (compileInterleaved c schedule sources).run s₀ = (.ok results, s₁) ∧
      (compileInterleaved c schedule' sources).run s₀ = (.ok results, s₂) ∧ s₁.Alike s₂ := by
  obtain ⟨results, s₁, hrun₁, hmid₁⟩ := compileInterleaved_run hindep hdir schedule
  obtain ⟨results', s₂, hrun₂, hmid₂⟩ := compileInterleaved_run hindep hdir schedule'
  have hkeys : results.map (·.1) = results'.map (·.1) := by
    have h := hmid₁.sources_eq.trans hmid₂.sources_eq.symm
    rwa [List.map_map, List.map_map] at h
  obtain ⟨rfl, halike⟩ := hmid₁.blend.unique hmid₂.blend hkeys
  exact ⟨results, s₁, s₂, hrun₁, hrun₂, hmid₁.blend.isDir,
    hmid₁.tools_eq.trans hmid₂.tools_eq.symm, hmid₁.failures_eq.trans hmid₂.failures_eq.symm,
    halike⟩

/-- Every schedule does what the loop over the sources does. -/
theorem compileScheduled_alike (jobs : Int) (schedule : List Nat) :
    ∃ paths s₁ s₂, (compileAll c 1 sources).run s₀ = (.ok paths, s₁) ∧
      (compileScheduled c jobs schedule sources).run s₀ = (.ok paths, s₂) ∧ s₁.Alike s₂ := by
  obtain ⟨results, s₁, s₂, hnil, hrun, halike⟩ := compileInterleaved_alike hindep hdir [] schedule
  rw [compileInterleaved_nil, compileTogether_run_eq_ok] at hnil
  obtain ⟨paths, t₁, t₂, hsort₁, hsort₂, halike'⟩ := halike.sortOut results
  have hturn : (compileInTurn c sources >>= sortOut).run s₀ = (.ok paths, t₁) := by
    rw [run_bind, hnil]
    exact hsort₁
  have htogether : (compileInterleaved c schedule sources >>= sortOut).run s₀ =
      (.ok paths, t₂) := by
    rw [run_bind, hrun]
    exact hsort₂
  by_cases hjobs : 1 < jobs
  · refine ⟨paths, t₁, t₂, hturn, ?_, halike'⟩
    rw [compileScheduled, if_pos hjobs]
    exact htogether
  · refine ⟨paths, t₁, t₁, hturn, ?_, halike'.isDir, rfl, rfl, fun _ => rfl⟩
    rw [compileScheduled, if_neg hjobs]
    exact hturn

end Independent

/-- A run in which the sources are compiled as the schedule tells. -/
def runScheduled (plan : Plan) (schedule : List Nat) : RunM Outcome :=
  runWith plan (compileScheduled plan.compiler plan.jobs schedule)

end Run

/-! ## Sources in directories -/

/-- There is no place where the output of both sources can be put. -/
def Entry.Apart (files : Entry) (source other : Path) : Prop :=
  ∀ names, (files.place (World.corePath source.parent source)).OpenAt names →
    ¬ (files.place (World.corePath other.parent other)).OpenAt names

section Directories

variable {c : Compiler} {tools : Toolbox} {files : Entry}

/-- Sources whose outputs are in directories that are there are independent if the outputs have
different places. -/
theorem Entry.independent_of_sits {sources : List Path} (hfiles : files.isDir = true)
    (hsits : ∀ source ∈ sources, ∃ cell, files.Sits (World.corePath source.parent source) cell)
    (hdistinct : (sources.map fun source => World.corePath source.parent source).Nodup)
    (hplaces : ∀ source ∈ sources, ∀ other ∈ sources, source ≠ other → files.Apart source other)
    (hcompiles : ∀ source ∈ sources,
      ∃ result files', c.Compiles tools source files result files') :
    c.Independent tools files sources where
  distinct := hdistinct
  apart := by
    intro source other ending files' hsource hother hne hends m hm
    obtain ⟨_, hcell⟩ := hsits source hsource
    obtain ⟨_, hcell'⟩ := hsits other hother
    obtain ⟨hkeeps, -⟩ := hends.frame hfiles hcell fun _ h => h
    obtain ⟨change, heffect⟩ := Behaviour.RunsTo.exists_effect hends
    obtain ⟨_, hends', hseen⟩ := heffect.runs hfiles rfl
    obtain ⟨-, rfl⟩ := Compiler.ends_unique hends hends'
    rcases hcell'.seen_or_openAt hfiles hm with hdir | hopen
    · rw [hdir, hkeeps m hdir]
    · rw [hseen]
      cases change with
      | none => rfl
      | some change =>
        refine if_neg ?_
        rintro rfl
        exact hplaces source hsource other hother hne _ (heffect.openAt rfl) hopen
  compiles := hcompiles

/-- The output of a source is in the directory of the source. -/
theorem Entry.exists_sits (hproper : files.Proper) {source : Path} {rows : List (String × Entry)}
    (hdir : files.at? source.parent = .ok (some (.dir rows))) :
    ∃ cell, files.Sits (World.corePath source.parent source) cell := by
  obtain ⟨home, hhome⟩ := exists_home hproper hdir
  have hdots : source.stem ++ ".core" ≠ ".." := by
    intro h
    have hlast := congrArg (fun name : String => name.toList.getLast?) h
    simp at hlast
  have hhere : files.get? (home ++ []) = some (.dir rows) := by
    rw [List.append_nil]
    exact hhome.get?_home
  exact ⟨_, hhome.sits_down hhere hdots⟩

/-- Sources that are found below a directory are independent if their outputs are different. -/
theorem Entry.Home.independent {root : Path} {home : List String} {rows : List (String × Entry)}
    (hhome : files.Home root home rows)
    (hdistinct : ((Sources.below root rows).sources.map fun source =>
      World.corePath source.parent source).Nodup)
    (hcompiles : ∀ source ∈ (Sources.below root rows).sources,
      ∃ result files', c.Compiles tools source files result files') :
    c.Independent tools files (Sources.below root rows).sources := by
  have hsits : ∀ source ∈ (Sources.below root rows).sources,
      files.Sits (World.corePath source.parent source)
        (root.cell home (World.corePath source.parent source)) := by
    intro source hsource
    obtain ⟨site⟩ := hhome.site hsource
    exact site.sits hhome
  refine independent_of_sits hhome.isDir (fun source hsource => ⟨_, hsits source hsource⟩) hdistinct
    ?_ hcompiles
  intro source hsource other hother hne names hopen hopen'
  obtain ⟨site⟩ := hhome.site hsource
  obtain ⟨site'⟩ := hhome.site hother
  have hcell := (hsits source hsource).eq_of_openAt (fun _ h => h) hopen
  have hcell' := (hsits other hother).eq_of_openAt (fun _ h => h) hopen'
  exact hne (List.inj_on_of_nodup_map hdistinct hsource hother
    (site.core_of_cell site' (hcell.symm.trans hcell')))

end Directories

namespace Run

/-- Whatever compiles the sources, a run does not end without a fault where directories are nested
too deeply. -/
theorem rowsDepth_le_of_runWith {plan : Plan} {compile : List Path → RunM (List Path)}
    {s s' : Session} {outcome : Outcome} {rows : List (String × Entry)}
    (hroot : s.world.files.at? plan.root = .ok (some (.dir rows)))
    (h : (runWith plan compile).run s = (.ok outcome, s')) :
    Sources.rowsDepth (Sources.room plan.root) plan.root rows ≤ stackLimit := by
  obtain ⟨_, _, hsurvey, -⟩ := run_bind_eq_ok.1 h
  obtain ⟨⟨rows', hroot', hshallow, -⟩, -⟩ := (has_survey plan).sound hsurvey
  cases hroot.symm.trans hroot'
  exact hshallow

theorem runScheduled_alike {plan : Plan} {s : Session} {rows : List (String × Entry)}
    (hroot : s.world.files.at? plan.root = .ok (some (.dir rows)))
    (hshallow : Sources.rowsDepth (Sources.room plan.root) plan.root rows ≤ stackLimit)
    (hindep : plan.compiler.Independent s.world.tools s.world.files
      (Sources.below plan.root rows).sources) (schedule : List Nat) :
    ∃ t₁ t₂ paths, t₁.Alike t₂ ∧
      (run { plan with jobs := 1 }).run s =
        (conclude plan (Sources.below plan.root rows).sources.length paths).run t₁ ∧
      (runScheduled plan schedule).run s =
        (conclude plan (Sources.below plan.root rows).sources.length paths).run t₂ := by
  obtain ⟨s', hsurvey, hstanding⟩ :=
    (has_survey plan).complete (s := s) ⟨⟨rows, hroot, hshallow, rfl⟩, rfl⟩
  have hfiles : s'.world.files = s.world.files := congrArg (·.scene.files) hstanding
  have htools : s'.world.tools = s.world.tools := congrArg (·.scene.tools) hstanding
  rw [← hfiles, ← htools] at hindep
  rw [← hfiles] at hroot
  obtain ⟨paths, t₁, t₂, hturn, hscheduled, halike⟩ :=
    compileScheduled_alike hindep (Entry.isDir_of_at? hroot) plan.jobs schedule
  refine ⟨t₁, t₂, paths, halike, ?_, ?_⟩
  · change (survey plan >>= fun sources => compileAll plan.compiler 1 sources >>= fun paths =>
      conclude plan sources.length paths).run s = _
    rw [run_bind, hsurvey]
    dsimp only
    rw [run_bind, hturn]
  · rw [runScheduled, runWith, run_bind, hsurvey]
    dsimp only
    rw [run_bind, hscheduled]

/-- Runs that compile in turn or as a schedule tells end with the same outcome, the same graph and
files that look the same. -/
theorem runScheduled_same {plan : Plan} {s : Session} {rows : List (String × Entry)}
    (hroot : s.world.files.at? plan.root = .ok (some (.dir rows)))
    (hindep : plan.compiler.Independent s.world.tools s.world.files
      (Sources.below plan.root rows).sources) (schedule : List Nat) (outcome : Outcome) :
    ((∃ s₁, (run { plan with jobs := 1 }).run s = (.ok outcome, s₁)) ↔
      ∃ s₂, (runScheduled plan schedule).run s = (.ok outcome, s₂)) ∧
    ∀ s₁ s₂, (run { plan with jobs := 1 }).run s = (.ok outcome, s₁) →
      (runScheduled plan schedule).run s = (.ok outcome, s₂) →
      s₁.world.files.Alike s₂.world.files ∧
      s₁.world.files.read (.ofText plan.output) =
        .ok (plan.drawing.render outcome.reports).toUTF8 ∧
      s₂.world.files.read (.ofText plan.output) =
        .ok (plan.drawing.render outcome.reports).toUTF8 := by
  refine ⟨⟨?_, ?_⟩, fun s₁ s₂ h₁ h₂ => ?_⟩
  · rintro ⟨s₁, h₁⟩
    obtain ⟨t₁, t₂, paths, halike, hturn, hscheduled⟩ :=
      runScheduled_alike hroot (rowsDepth_le_of_runWith hroot h₁) hindep schedule
    obtain ⟨s₂, h₂, -⟩ := halike.conclude (hturn.symm.trans h₁)
    exact ⟨s₂, hscheduled.trans h₂⟩
  · rintro ⟨s₂, h₂⟩
    obtain ⟨t₁, t₂, paths, halike, hturn, hscheduled⟩ :=
      runScheduled_alike hroot (rowsDepth_le_of_runWith hroot h₂) hindep schedule
    obtain ⟨s₁, h₁, -⟩ := halike.symm.conclude (hscheduled.symm.trans h₂)
    exact ⟨s₁, hturn.trans h₁⟩
  · obtain ⟨t₁, t₂, paths, halike, hturn, hscheduled⟩ :=
      runScheduled_alike hroot (rowsDepth_le_of_runWith hroot h₁) hindep schedule
    obtain ⟨s₂', h₂', halike'⟩ := halike.conclude (hturn.symm.trans h₁)
    cases h₂.symm.trans (hscheduled.trans h₂')
    obtain ⟨a, rfl, hstanding⟩ := (has_run _).sound h₁
    have hread : s₁.world.files.read (.ofText plan.output) =
        .ok (plan.drawing.render a.reports).toUTF8 := by
      rw [show s₁.world.files = a.written from congrArg (·.scene.files) hstanding]
      exact a.read_written
    exact ⟨halike'.files, hread, (halike'.files.read_eq _).trans hread⟩

end Run

open Run in
/-- The order in which the steps of compiling are taken is not seen in the paths, the failures and
the files that compiling gives, nor in the outcome and the graph of a run below a directory that is
given by a relative path. Sources in directories that are there are independent if no two of their
outputs have the same place. -/
theorem interleaving_is_invisible :
    (∀ (c : Compiler) (jobs : Int) (sources : List Path) (s : Session),
      (compileScheduled c jobs [] sources).run s = (compileAll c jobs sources).run s) ∧
    (∀ (c : Compiler) (jobs : Int) (schedule : List Nat) (sources : List Path) (s : Session),
      s.world.files.isDir = true → c.Independent s.world.tools s.world.files sources →
      ∃ paths s₁ s₂, (compileAll c 1 sources).run s = (.ok paths, s₁) ∧
        (compileScheduled c jobs schedule sources).run s = (.ok paths, s₂) ∧
        s₁.failures = s₂.failures ∧ s₁.world.files.Alike s₂.world.files) ∧
    (∀ (c : Compiler) (tools : Toolbox) (files : Entry) (sources : List Path), files.Proper →
      files.isDir = true →
      (∀ source ∈ sources, ∃ rows, files.at? source.parent = .ok (some (.dir rows))) →
      (sources.map fun source => World.corePath source.parent source).Nodup →
      (∀ source ∈ sources, ∀ other ∈ sources, source ≠ other → files.Apart source other) →
      (∀ source ∈ sources, ∃ result files', c.Compiles tools source files result files') →
      c.Independent tools files sources) ∧
    ∀ (plan : Plan) (schedule : List Nat) (s : Session) (rows : List (String × Entry)),
      s.world.files.Proper → s.world.files.at? plan.root = .ok (some (.dir rows)) →
      ((Sources.below plan.root rows).sources.map fun source =>
        World.corePath source.parent source).Nodup →
      (∀ source ∈ (Sources.below plan.root rows).sources, ∃ result files,
        plan.compiler.Compiles s.world.tools source s.world.files result files) →
      ∀ outcome, ((∃ s₁, (run { plan with jobs := 1 }).run s = (.ok outcome, s₁)) ↔
          ∃ s₂, (runScheduled plan schedule).run s = (.ok outcome, s₂)) ∧
        ∀ s₁ s₂, (run { plan with jobs := 1 }).run s = (.ok outcome, s₁) →
          (runScheduled plan schedule).run s = (.ok outcome, s₂) →
          s₁.world.files.Alike s₂.world.files ∧
          s₁.world.files.read (.ofText plan.output) =
            .ok (plan.drawing.render outcome.reports).toUTF8 ∧
          s₂.world.files.read (.ofText plan.output) =
            .ok (plan.drawing.render outcome.reports).toUTF8 := by
  refine ⟨compileScheduled_nil, fun c jobs schedule sources s hdir hindep => ?_,
    fun c tools files sources hproper hdir hdirs hdistinct hplaces hcompiles => ?_,
    fun plan schedule s rows hproper hroot hdistinct hcompiles outcome => ?_⟩
  · obtain ⟨paths, s₁, s₂, h₁, h₂, halike⟩ := compileScheduled_alike hindep hdir jobs schedule
    exact ⟨paths, s₁, s₂, h₁, h₂, halike.failures_eq, halike.files⟩
  · refine Entry.independent_of_sits hdir (fun source hsource => ?_) hdistinct hplaces hcompiles
    obtain ⟨rows, hrows⟩ := hdirs source hsource
    exact Entry.exists_sits hproper hrows
  · obtain ⟨home, hhome⟩ := Entry.exists_home hproper hroot
    exact runScheduled_same hroot (hhome.independent hdistinct hcompiles) schedule outcome

open Run in
/-- The second source is done before the first is begun. The first is not compiled, and the output
of the second is a directory. -/
theorem interleaving_is_invisible_two :
    let rows : List (String × Entry) := [("a.erl", .file .empty), ("b.erl", .file .empty)]
    let compiling (source : String) : Behaviour :=
      if source = "a.erl" then ⟨.exited 1 none (some "no"), none⟩
      else ⟨.exited 0 none none, some .dir⟩
    let plan : Plan := ⟨.standard, .standard, .standard, 2, ⟨"", []⟩, "g.dot", none⟩
    let w : World := ⟨.dir rows, ⟨compiling, .missing, []⟩, [], []⟩
    let s : Session := ⟨w, .ofClock (.ofList []), [], []⟩
    let sources : List Path := [⟨"", ["a.erl"]⟩, ⟨"", ["b.erl"]⟩]
    w.files.Proper ∧ (Sources.below plan.root rows).sources = sources ∧
    plan.compiler.Independent w.tools w.files sources ∧
    (∃ paths s₁ s₂, (compileAll plan.compiler 1 sources).run s = (.ok paths, s₁) ∧
      (compileScheduled plan.compiler 2 [1, 1, 0] sources).run s = (.ok paths, s₂) ∧
      s₁.failures = s₂.failures) ∧
    ∃ outcome s₂, (runScheduled plan [1, 1, 0]).run s = (.ok outcome, s₂) ∧
      outcome.failures.length = 2 ∧ s₂.world.files.read (.ofText "g.dot") =
        .ok (plan.drawing.render outcome.reports).toUTF8 := by
  intro rows compiling plan w s sources
  have hproper : w.files.Proper :=
    Entry.proper_of_files ["a.erl", "b.erl"] (by decide) (by decide)
  have hsources : (Sources.below plan.root rows).sources = sources := by
    have hsorted : ["a.erl", "b.erl"].Pairwise (· ≤ ·) := by decide
    exact Sources.sources_below_files hsorted (by decide) .empty
  have hdistinct : ((Sources.below plan.root rows).sources.map fun source =>
      World.corePath source.parent source).Nodup := by
    rw [hsources]
    decide
  have hcompiles : ∀ source ∈ (Sources.below plan.root rows).sources, ∃ result files,
      plan.compiler.Compiles w.tools source w.files result files := by
    rw [hsources]
    simp only [sources, List.forall_mem_cons, List.not_mem_nil, false_implies, implies_true,
      and_true]
    exact ⟨⟨_, _, _, .bare rfl, .failed (by decide)⟩, _, _, _, .left rfl rfl rfl, .produced rfl⟩
  have hroot : w.files.at? plan.root = .ok (some (.dir rows)) := rfl
  have hplaces : ∀ source ∈ sources, ∀ other ∈ sources, source ≠ other →
      w.files.Apart source other := by
    have ha : (w.files.place ⟨"", ["a.core"]⟩) = .missing ["a.core"] := rfl
    have hb : (w.files.place ⟨"", ["b.core"]⟩) = .missing ["b.core"] := rfl
    have hapart : w.files.Apart ⟨"", ["a.erl"]⟩ ⟨"", ["b.erl"]⟩ := by
      rintro names hopen hopen'
      have hcore : ["a.core"] = ["b.core"] := Eq.trans (ha ▸ hopen) (hb ▸ hopen').symm
      exact absurd hcore (by decide)
    intro source hsource other hother hne
    rcases List.mem_pair.1 hsource with rfl | rfl <;> rcases List.mem_pair.1 hother with rfl | rfl
    · exact absurd rfl hne
    · exact hapart
    · exact fun names hopen hopen' => hapart names hopen' hopen
    · exact absurd rfl hne
  have hindep : plan.compiler.Independent w.tools w.files sources :=
    interleaving_is_invisible.2.2.1 plan.compiler w.tools w.files sources hproper rfl
      (by simpa [sources] using ⟨⟨rows, rfl⟩, rows, rfl⟩) (by decide) hplaces
      (by rwa [hsources] at hcompiles)
  let compiled : Entry := .dir (rows ++ [("b.core", .empty)])
  let a : Account { plan with jobs := 1 } w.tools w.files :=
    { rows := rows
      results := [(⟨"", ["a.erl"]⟩, .error ⟨"a.erl", some 1, "no"⟩),
        (⟨"", ["b.erl"]⟩, .ok ⟨"", ["b.core"]⟩)]
      findings := [(⟨"", ["b.core"]⟩, .failure .read "[Errno 21] Is a directory: 'b.core'")]
      compiled
      extracted := compiled
      written := .dir (rows ++ [("b.core", .empty),
        ("g.dot", .file (Drawing.standard.render []).toUTF8)])
      root_eq := rfl
      shallow := by decide
      sources_eq := hsources.symm
      compiles := .cons ⟨_, .bare rfl, .failed (by decide)⟩
        (.cons ⟨_, .left rfl rfl rfl, .produced rfl⟩ (.nil _))
      paths_eq := rfl
      shows := .cons ⟨.unread (.isDirectory "b.core"), rfl⟩ (.nil _)
      write_eq := by
        simp only [plan, compiled, rows]
        rfl
      image_drawn := by simp [plan] }
  obtain ⟨outcome, s₁, hrun, -, hfailures⟩ := a.exists_run (.ofClock (.ofList [])) []
  obtain ⟨hiff, hsame⟩ := interleaving_is_invisible.2.2.2 plan [1, 1, 0] s rows hproper hroot
    hdistinct hcompiles outcome
  obtain ⟨s₂, hrun₂⟩ := hiff.1 ⟨s₁, hrun⟩
  refine ⟨hproper, hsources, hindep, ?_, outcome, s₂, hrun₂, by rw [hfailures]; rfl,
    (hsame s₁ s₂ hrun hrun₂).2.2⟩
  obtain ⟨paths, t₁, t₂, h₁, h₂, heq, -⟩ :=
    interleaving_is_invisible.2.1 plan.compiler 2 [1, 1, 0] sources s rfl hindep
  exact ⟨paths, t₁, t₂, h₁, h₂, heq⟩

end CallGraph
