import CallGraph.Proofs.Run.Tools

/-!
The stages of a run: compiling the sources, reading what was compiled, writing the graph. For each
it is told how it can end without a fault, in terms of the files, the commands that were run and
the units that were left out. What is reported on the way plays no part.
-/

namespace CallGraph

/-- What can be seen of a session but the log and the record of the phases. -/
structure Standing where
  scene : Scene
  failures : List UnitFailure

def Session.standing (s : Session) : Standing := ⟨s.world.scene, s.failures⟩

open Session (standing)

namespace Run

theorem has_emit (e : Event) : Has standing (emit e) fun v _ v' => v' = v where
  sound hrun := by
    cases hrun
    rfl
  complete h := ⟨_, rfl, h.symm⟩

theorem has_leaveOut (f : UnitFailure) :
    Has standing (leaveOut f) fun v _ v' => v' = { v with failures := v.failures ++ [f] } where
  sound hrun := by
    cases hrun
    rfl
  complete h := ⟨_, rfl, h.symm⟩

theorem has_phase (step : PhaseStep) : Has standing (phase step) fun v _ v' => v' = v := by
  refine Has.get_bind (S := fun v₀ _ _ v' => v' = v₀) fun s => ?_
  rcases s.tracker.step step with ⟨tracker, changed⟩
  refine ((Has.set { s with tracker }).bind
    (S := fun _ v _ v' => v' = v) fun _ => ?_).congr fun v _ v' => ?_
  · cases changed with
    | some p => exact has_emit _
    | none => exact (Has.pure ()).congr fun v _ v' => by simp
  · constructor
    · rintro ⟨_, _, rfl, rfl⟩
      rfl
    · intro h
      exact ⟨⟨⟩, _, rfl, h⟩

theorem lift_run {α : Type} (x : WorldM α) (s : Session) :
    (lift x).run s = ((x.run s.world).1, { s with world := (x.run s.world).2 }) := by
  have hget : (get : RunM Session).run s = (.ok s, s) := rfl
  rw [lift, run_bind, hget]
  dsimp only
  rcases x.run s.world with ⟨_ | a, w⟩ <;> rfl

theorem has_lift {α : Type} {x : WorldM α} {R : Scene → α → Scene → Prop}
    (hx : Has World.scene x R) :
    Has standing (lift x) fun v a v' => ∃ c, R v.scene a c ∧ v' = { v with scene := c } where
  sound := by
    intro s s' a hrun
    rw [lift_run] at hrun
    injection hrun with hresult hstate
    subst hstate
    exact ⟨_, hx.sound (Prod.ext hresult rfl), rfl⟩
  complete := by
    rintro s a _ ⟨c, hR, rfl⟩
    obtain ⟨w, hrun, rfl⟩ := hx.complete hR
    exact ⟨{ s with world := w }, by rw [lift_run, show x.run s.world = _ from hrun], rfl⟩

end Run

/-! ## Compiling -/

/-- What compiling sources one after the other gives, and which files it leaves. -/
def Compiler.CompilesAll (c : Compiler) (tools : Toolbox) :
    Entry → List (Path × Except CompileError Path) → Entry → Prop :=
  Pass fun files source result files' => c.Compiles tools source files result files'

namespace Run

theorem has_compileInTurn (c : Compiler) (sources : List Path) :
    Has standing (compileInTurn c sources) fun v results v' =>
      results.map (·.1) = sources ∧ ∃ files,
        c.CompilesAll v.scene.tools v.scene.files results files ∧
        v' = { v with scene := { v.scene with
          files, commands := v.scene.commands ++ sources.map c.command } } := by
  induction sources with
  | nil =>
    refine (Has.pure []).congr fun v results v' => ?_
    constructor
    · rintro ⟨rfl, rfl⟩
      refine ⟨rfl, v'.scene.files, .nil _, ?_⟩
      rw [List.map_nil, List.append_nil]
    · rintro ⟨hnil, files, hall, rfl⟩
      rw [List.map_eq_nil_iff] at hnil
      subst hnil
      cases hall
      rw [List.map_nil, List.append_nil]
      exact ⟨rfl, rfl⟩
  | cons source sources ih =>
    refine ((has_lift (c.has_compile source)).bind fun result =>
      ih.bind fun results => Has.pure ((source, result) :: results)).congr fun v results v' => ?_
    constructor
    · rintro ⟨result, _, ⟨_, ⟨files, hfirst, rfl⟩, rfl⟩, results, _, ⟨hsources, files', hrest, rfl⟩,
        rfl, rfl⟩
      refine ⟨by rw [List.map_cons, hsources], files', .cons hfirst hrest, ?_⟩
      simp
    · rintro ⟨hsources, files', hall, rfl⟩
      cases hall with
      | nil => cases hsources
      | cons hfirst hrest =>
        rw [List.map_cons, List.cons.injEq] at hsources
        obtain ⟨rfl, hsources⟩ := hsources
        refine ⟨_, _, ⟨_, ⟨_, hfirst, rfl⟩, rfl⟩, _, _, ⟨hsources, files', hrest, rfl⟩, rfl, ?_⟩
        simp

theorem observing_run_eq_ok {α : Type} {x : RunM α} {s s' : Session} {r : Except Fault α} :
    (compileTogether.observing x).run s = (.ok r, s') ↔ x.run s = (r, s') := by
  have hrun : (compileTogether.observing x).run s = (.ok (x.run s).1, (x.run s).2) := by
    rw [compileTogether.observing, run_bind, run_tryCatch, run_bind]
    rcases x.run s with ⟨_ | a, s'⟩ <;> rfl
  rw [hrun]
  constructor
  · intro h
    cases h
    rfl
  · intro h
    rw [h]

theorem ofExcept_run_eq_ok {α : Type} {r : Except Fault α} {s s' : Session} {a : α} :
    (MonadExcept.ofExcept r : RunM α).run s = (.ok a, s') ↔ r = .ok a ∧ s = s' := by
  have hrun : (MonadExcept.ofExcept r : RunM α).run s = (r, s) := by
    cases r <;> rfl
  rw [hrun]
  constructor
  · intro h
    cases h
    exact ⟨rfl, rfl⟩
  · rintro ⟨rfl, rfl⟩
    rfl

/-- Side by side or in turn, compiling ends without a fault in the same way. -/
theorem compileTogether_run_eq_ok {c : Compiler} {sources : List Path} {s s' : Session}
    {results : List (Path × Except CompileError Path)} :
    (compileTogether c sources).run s = (.ok results, s') ↔
      (compileInTurn c sources).run s = (.ok results, s') := by
  induction sources generalizing s s' results with
  | nil => exact Iff.rfl
  | cons source sources ih =>
    rw [compileTogether, compileInTurn]
    simp only [run_bind_eq_ok, observing_run_eq_ok, ofExcept_run_eq_ok, ← ih]
    constructor
    · rintro ⟨_, s₁, hfirst, _, s₂, hothers, result, _, ⟨rfl, rfl⟩, results', _, ⟨rfl, rfl⟩, hpure⟩
      exact ⟨result, s₁, hfirst, results', s₂, hothers, hpure⟩
    · rintro ⟨result, s₁, hfirst, results', s₂, hothers, hpure⟩
      exact ⟨_, s₁, hfirst, _, s₂, hothers, result, s₂, ⟨rfl, rfl⟩, results', s₂, ⟨rfl, rfl⟩, hpure⟩

/-- The path of the output of a source that was compiled. -/
def compiledPath? : Path × Except CompileError Path → Option Path
  | (_, .ok path) => some path
  | (_, .error _) => none

/-- The failure of a source that was not compiled. -/
def compileFailure? : Path × Except CompileError Path → Option UnitFailure
  | (_, .ok _) => none
  | (source, .error e) => some ⟨source.text, .compile, e.message⟩

theorem has_sortOut (results : List (Path × Except CompileError Path)) :
    Has standing (sortOut results) fun v paths v' =>
      paths = results.filterMap compiledPath? ∧
        v' = { v with failures := v.failures ++ results.filterMap compileFailure? } := by
  induction results with
  | nil =>
    refine (Has.pure []).congr fun v paths v' => ?_
    rw [List.filterMap_nil, List.filterMap_nil, List.append_nil]
  | cons row results ih =>
    obtain ⟨source, e | path⟩ := row
    · refine Has.silent_bind (has_emit _) (((has_leaveOut _).bind fun _ => ih).congr
        fun v paths v' => ?_)
      simp only [List.filterMap_cons, compiledPath?, compileFailure?]
      constructor
      · rintro ⟨_, _, rfl, rfl, rfl⟩
        simp
      · rintro ⟨rfl, rfl⟩
        exact ⟨(), _, rfl, rfl, by simp⟩
    · refine (ih.bind fun paths => Has.pure (path :: paths)).congr fun v paths v' => ?_
      simp only [List.filterMap_cons, compiledPath?, compileFailure?]
      constructor
      · rintro ⟨_, _, ⟨rfl, rfl⟩, rfl, rfl⟩
        exact ⟨rfl, rfl⟩
      · rintro ⟨rfl, rfl⟩
        exact ⟨_, _, ⟨rfl, rfl⟩, rfl, rfl⟩

theorem has_compileAll (c : Compiler) (jobs : Int) (sources : List Path) :
    Has standing (compileAll c jobs sources) fun v paths v' =>
      ∃ results files, results.map (·.1) = sources ∧
        c.CompilesAll v.scene.tools v.scene.files results files ∧
        paths = results.filterMap compiledPath? ∧
        v' = ⟨{ v.scene with files, commands := v.scene.commands ++ sources.map c.command },
          v.failures ++ results.filterMap compileFailure?⟩ := by
  have hcompile : compileAll c jobs sources =
      (if 1 < jobs then compileTogether c sources else compileInTurn c sources) >>= sortOut := by
    rw [compileAll]
    split <;> rfl
  have hresults := (has_compileInTurn c sources).of_run_iff
    (y := if 1 < jobs then compileTogether c sources else compileInTurn c sources) fun s a s' => by
      split
      · exact compileTogether_run_eq_ok
      · exact Iff.rfl
  rw [hcompile]
  refine (hresults.bind has_sortOut).congr fun v paths v' => ?_
  constructor
  · rintro ⟨results, _, ⟨hsources, files, hall, rfl⟩, rfl, rfl⟩
    exact ⟨results, files, hsources, hall, rfl, rfl⟩
  · rintro ⟨results, files, hsources, hall, rfl, rfl⟩
    exact ⟨results, _, ⟨hsources, files, hall, rfl⟩, rfl, rfl⟩

end Run

/-! ## Reading what was compiled -/

/-- What a file is found to be: the calls of a unit, or no readable unit. -/
inductive Finding where
  | failure (point : FailurePoint) (error : String)
  | report (r : Report)

namespace Finding

def report? : Finding → Option Report
  | .failure .. => none
  | .report r => some r

/-- The failure of the unit at a path. -/
def failureAt? (path : Path) : Finding → Option UnitFailure
  | .failure point error => some ⟨path.text, point, error⟩
  | .report _ => none

/-- What is found in the bytes at a path, or when they cannot be read. A text in which something
stands for no value has no finding, and neither has a module that cannot be described. -/
inductive Of (path : Path) : Except Fault ByteArray → Finding → Prop
  | unread (e : OsError) : Of path (.error (.os e)) (.failure .read e.message)
  | malformed {bytes : ByteArray} {d : Diagnostic}
    (hparse : Module.ofText (some path.text) (Text.ofFile bytes) = .error (.malformed d)) :
    Of path (.ok bytes) (.failure .parse d.text)
  | parsed {bytes : ByteArray} {m : Ann Module} {r : Report}
    (hparse : Module.ofText (some path.text) (Text.ofFile bytes) = .ok m)
    (hreport : m.node.report stackLimit = .ok r) : Of path (.ok bytes) (.report r)

/-- A path at which something is found stands for a path. -/
theorem Of.hasZero {path : Path} {files : Entry} {finding : Finding}
    (h : finding.Of path (files.read path)) : path.hasZero = false := by
  generalize hread : files.read path = r at h
  cases h with
  | unread => exact Entry.onPlace_eq_os hread
  | malformed | parsed => exact (Entry.onPlace_eq_ok hread).1

end Finding

/-- The files without the one at a path, if there is one. -/
def Entry.cleared (files : Entry) (path : Path) : Entry :=
  match files.remove path with
  | .ok files' => files'
  | .error _ => files

/-- What reading files and taking them away shows, one after the other, and what is left. -/
def Entry.Shows : Entry → List (Path × Finding) → Entry → Prop :=
  Pass fun files path finding files' =>
    finding.Of path (files.read path) ∧ files' = files.cleared path

namespace Run

theorem has_discard (path : Path) :
    Has standing (discard path) fun v _ v' => path.hasZero = false ∧
      v' = { v with scene := { v.scene with files := v.scene.files.cleared path } } := by
  refine (Has.get_bind (S := fun (v₀ v : Standing) _ v' => path.hasZero = false ∧
    v' = match v₀.scene.files.remove path with
      | .ok files => { v₀ with scene := { v₀.scene with files } }
      | .error _ => v) fun (s : Session) => ?_).congr fun v _ v' => ?_
  · have hs : s.standing.scene.files = s.world.files := rfl
    rw [hs]
    cases hremove : s.world.files.remove path with
    | ok files =>
      have hzero := (Entry.onPlace_eq_ok hremove).1
      exact (Has.set _).congr fun v _ v' => by simp [hzero, Session.standing, World.scene]
    | error fault =>
      cases fault with
      | os e =>
        have hzero := Entry.onPlace_eq_os hremove
        cases e with
        | noSuchFile => exact (Has.pure ()).congr fun v _ v' => by simp [hzero]
        | _ => exact (has_emit _).congr fun v _ v' => by simp [hzero]
      | conversion | tooDeep | noRule =>
        have hzero := (Entry.onPlace_eq_error hremove).resolve_right (by simp)
        exact Has.throw_of _ fun v _ v' h => by simp [hzero] at h
  · rw [Entry.cleared]
    cases v.scene.files.remove path <;> rfl

/-- A unit that is reported and left out. -/
theorem has_failure (e : Event) (f : UnitFailure) :
    Has standing (do emit e; leaveOut f; return (none : Option Report)) fun v report v' =>
      report = none ∧ v' = { v with failures := v.failures ++ [f] } := by
  refine Has.silent_bind (has_emit e) (((has_leaveOut f).bind fun _ => Has.pure none).congr
    fun v report v' => ?_)
  constructor
  · rintro ⟨_, _, rfl, rfl, rfl⟩
    exact ⟨rfl, rfl⟩
  · rintro ⟨rfl, rfl⟩
    exact ⟨(), _, rfl, rfl, rfl⟩

/-- What is made of a module that was read. -/
theorem has_report (m : Module) :
    Has standing
      (match m.report stackLimit with
      | .error e => throw e.fault
      | .ok report => do
        emit (.unitExtracted report.unit report.calls.length)
        return some report)
      fun v report v' => ∃ r, m.report stackLimit = .ok r ∧ report = some r ∧ v' = v := by
  cases m.report stackLimit with
  | error e =>
    refine Has.throw_of _ fun v report v' => ?_
    rintro ⟨_, ⟨⟩, _⟩
  | ok r =>
    refine (Has.silent_bind (has_emit _) (Has.pure _)).congr fun v report v' => ⟨?_, ?_⟩
    · rintro ⟨rfl, rfl⟩
      exact ⟨r, rfl, rfl, rfl⟩
    · rintro ⟨_, ⟨⟩, rfl, rfl⟩
      exact ⟨rfl, rfl⟩

/-- What is made of what was read at a path. -/
theorem has_finding (path : Path) (bytes : Except Fault ByteArray) :
    Has standing
      (match bytes with
      | .error (.os e) => do
        emit (.readFailed path.text e.message)
        leaveOut ⟨path.text, .read, e.message⟩
        return none
      | .error e => throw e
      | .ok bytes =>
        match Module.ofText (some path.text) (Text.ofFile bytes) with
        | .error (.malformed d) => do
          emit (.parseFailed path.text d.text)
          leaveOut ⟨path.text, .parse, d.text⟩
          return none
        | .error (.conversion e) => throw (.conversion e)
        | .ok m =>
          match m.node.report stackLimit with
          | .error e => throw e.fault
          | .ok report => do
            emit (.unitExtracted report.unit report.calls.length)
            return some report)
      fun v report v' => ∃ finding : Finding, finding.Of path bytes ∧ report = finding.report? ∧
        v' = { v with failures := v.failures ++ (finding.failureAt? path).toList } := by
  rcases bytes with fault | bytes
  · cases fault with
    | os e =>
      refine (has_failure _ _).congr fun v report v' => ⟨?_, ?_⟩
      · rintro ⟨rfl, rfl⟩
        exact ⟨_, .unread e, rfl, rfl⟩
      · rintro ⟨_, ⟨⟩, rfl, rfl⟩
        exact ⟨rfl, rfl⟩
    | conversion | tooDeep | noRule =>
      refine Has.throw_of _ fun v report v' => ?_
      rintro ⟨_, ⟨⟩, _⟩
  · dsimp only
    cases hparse : Module.ofText (some path.text) (Text.ofFile bytes) with
    | error e =>
      rcases e with d | e
      · refine (has_failure _ _).congr fun v report v' => ⟨?_, ?_⟩
        · rintro ⟨rfl, rfl⟩
          exact ⟨_, .malformed hparse, rfl, rfl⟩
        · rintro ⟨_, hfinding, rfl, rfl⟩
          cases hfinding with
          | malformed h =>
            rw [hparse] at h
            cases h
            exact ⟨rfl, rfl⟩
          | parsed h =>
            rw [hparse] at h
            cases h
      · refine Has.throw_of _ fun v report v' => ?_
        rintro ⟨_, hfinding, _⟩
        cases hfinding with
        | malformed h | parsed h =>
          rw [hparse] at h
          cases h
    | ok m =>
      refine (has_report m.node).congr fun v report v' => ⟨?_, ?_⟩
      · rintro ⟨r, hreport, rfl, rfl⟩
        exact ⟨_, .parsed hparse hreport, rfl, by simp [Finding.failureAt?]⟩
      · rintro ⟨_, hfinding, rfl, rfl⟩
        cases hfinding with
        | malformed h =>
          rw [hparse] at h
          cases h
        | parsed h hreport =>
          rw [hparse] at h
          cases h
          exact ⟨_, hreport, rfl, by simp [Finding.failureAt?]⟩

theorem has_extractFile (path : Path) :
    Has standing (extractFile path) fun v report v' =>
      ∃ finding : Finding, finding.Of path (v.scene.files.read path) ∧ report = finding.report? ∧
        v' = ⟨{ v.scene with files := v.scene.files.cleared path },
          v.failures ++ (finding.failureAt? path).toList⟩ := by
  refine (Has.get_bind (S := fun (v₀ v : Standing) report v' => path.hasZero = false ∧
    ∃ finding : Finding, finding.Of path (v₀.scene.files.read path) ∧ report = finding.report? ∧
      v' = ⟨{ v.scene with files := v.scene.files.cleared path },
        v.failures ++ (finding.failureAt? path).toList⟩) fun (s : Session) => ?_).congr
    fun v report v' => ?_
  · refine ((has_discard path).bind fun _ => has_finding path (s.world.files.read path)).congr
      fun v report v' => ⟨?_, ?_⟩
    · rintro ⟨_, _, ⟨hzero, rfl⟩, finding, hfinding, hreport, rfl⟩
      exact ⟨hzero, finding, hfinding, hreport, rfl⟩
    · rintro ⟨hzero, finding, hfinding, hreport, rfl⟩
      exact ⟨(), _, ⟨hzero, rfl⟩, finding, hfinding, hreport, rfl⟩
  · rw [and_iff_right_of_imp]
    rintro ⟨finding, hfinding, -⟩
    exact hfinding.hasZero

theorem has_extractAll (paths : List Path) :
    Has standing (extractAll paths) fun v reports v' =>
      ∃ findings files, findings.map (·.1) = paths ∧ v.scene.files.Shows findings files ∧
        reports = findings.filterMap (·.2.report?) ∧
        v' = ⟨{ v.scene with files },
          v.failures ++ findings.filterMap fun row => row.2.failureAt? row.1⟩ := by
  induction paths with
  | nil =>
    refine (Has.pure []).congr fun v reports v' => ⟨?_, ?_⟩
    · rintro ⟨rfl, rfl⟩
      exact ⟨[], v'.scene.files, rfl, .nil _, rfl, by simp⟩
    · rintro ⟨findings, files, hpaths, hshows, rfl, rfl⟩
      rw [List.map_eq_nil_iff] at hpaths
      subst hpaths
      cases hshows
      exact ⟨rfl, by simp⟩
  | cons path paths ih =>
    refine ((has_extractFile path).bind fun report => ih.bind fun reports =>
      Has.pure (report.toList ++ reports)).congr fun v reports v' => ⟨?_, ?_⟩
    · rintro ⟨_, _, ⟨finding, hfirst, rfl, rfl⟩, _, _, ⟨findings, files, rfl, hrest, rfl, rfl⟩,
        rfl, rfl⟩
      refine ⟨(path, finding) :: findings, files, rfl, .cons ⟨hfirst, rfl⟩ hrest, ?_, ?_⟩
      · rw [List.filterMap_cons]
        cases finding.report? <;> rfl
      · rw [List.filterMap_cons]
        cases finding.failureAt? path <;> simp
    · rintro ⟨rows, files, hpaths, hshows, rfl, rfl⟩
      cases hshows with
      | nil => cases hpaths
      | @cons _ _ _ path' finding findings hfirst hrest =>
        rw [List.map_cons, List.cons.injEq] at hpaths
        obtain ⟨rfl, rfl⟩ := hpaths
        obtain ⟨hfirst, rfl⟩ := hfirst
        refine ⟨_, _, ⟨finding, hfirst, rfl, rfl⟩, _, _,
          ⟨findings, files, rfl, hrest, rfl, rfl⟩, ?_, ?_⟩
        · rw [List.filterMap_cons]
          cases finding.report? <;> rfl
        · rw [List.filterMap_cons]
          cases finding.failureAt? path' <;> simp

/-! ## Writing the graph -/

/-- That the graph cannot be written is recorded and ends the run all the same. -/
theorem has_writeGraph (output text : String) :
    Has standing (writeGraph output text) fun v _ v' =>
      ∃ files, v.scene.files.write (.ofText output) text.toUTF8 = .ok files ∧
        v' = { v with scene := { v.scene with files } } := by
  have hwrite := has_lift (World.has_change (·.write (.ofText output) text.toUTF8))
  refine (hwrite.of_run_iff fun s _ s' => ?_).congr fun v _ v' => ⟨?_, ?_⟩
  · rw [writeGraph, run_tryCatch]
    rcases (lift _).run s with ⟨e | _, s₁⟩
    · constructor
      · intro hrun
        cases e with
        | os refusal =>
          obtain ⟨_, _, -, hthrow⟩ := run_bind_eq_ok.1 hrun
          cases hthrow
        | conversion | tooDeep | noRule => cases hrun
      · intro h
        cases h
    · exact Iff.rfl
  · rintro ⟨_, ⟨files, hfiles, rfl⟩, rfl⟩
    exact ⟨files, hfiles, rfl⟩
  · rintro ⟨files, hfiles, rfl⟩
    exact ⟨_, ⟨files, hfiles, rfl⟩, rfl⟩

theorem writeGraph_error {output text : String} {s : Session} {fault : Fault}
    (h : s.world.files.write (.ofText output) text.toUTF8 = .error fault) :
    ∃ s', (writeGraph output text).run s = (.error fault, s') := by
  have hlift : (lift (World.change (·.write (.ofText output) text.toUTF8))).run s =
      (.error fault, s) := by
    rw [lift_run, World.change_run, h]
  rw [writeGraph, run_tryCatch, hlift]
  cases fault with
  | os refusal =>
    refine (has_phase _).bind_error (a := ()) rfl fun s' _ => ⟨s', rfl⟩
  | conversion | tooDeep | noRule => exact ⟨s, rfl⟩

end Run

end CallGraph
