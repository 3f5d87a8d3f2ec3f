import CallGraph.Proofs.Run.Stages

/-!
The account of a run. A run that ends without a fault has compiled each source that it found once,
has read each output once, and each source is either among the reports or among the failures, in
the order in which they were found. Conversely whatever can be accounted for in this way is a run.
-/

namespace CallGraph

open Session (standing)
open Run (compiledPath? compileFailure?)

/-- How a run can go in a world with these tools and files. -/
structure Account (plan : Plan) (tools : Toolbox) (files : Entry) where
  /-- The entries of the directory in which sources are looked for. -/
  rows : List (String × Entry)
  /-- The sources, each with what compiling it gave. -/
  results : List (Path × Except CompileError Path)
  /-- The outputs, each with what was found in it. -/
  findings : List (Path × Finding)
  /-- The files when all is compiled, when the outputs are read, and when the graph is written. -/
  (compiled extracted written : Entry)
  root_eq : files.at? plan.root = .ok (some (.dir rows))
  shallow : Sources.rowsDepth (Sources.room plan.root) plan.root rows ≤ stackLimit
  sources_eq : results.map (·.1) = (Sources.below plan.root rows).sources
  compiles : plan.compiler.CompilesAll tools files results compiled
  paths_eq : findings.map (·.1) = results.filterMap compiledPath?
  shows : compiled.Shows findings extracted
  write_eq : extracted.write (.ofText plan.output)
    (plan.drawing.render (findings.filterMap (·.2.report?))).toUTF8 = .ok written
  image_drawn : plan.image.isSome → tools.layout.status?.isSome

namespace Account

variable {plan : Plan} {tools : Toolbox} {files : Entry} (a : Account plan tools files)

def reports : List Report := a.findings.filterMap (·.2.report?)

/-- The sources that were not compiled, then the outputs that could not be read. -/
def failures : List UnitFailure :=
  a.results.filterMap compileFailure? ++ a.findings.filterMap fun row => row.2.failureAt? row.1

/-- The compiler for each source, and the layout tool if there is to be an image. -/
def commands : List Command :=
  a.results.map (fun row => plan.compiler.command row.1) ++
    (plan.image.map (plan.layout.command plan.output)).toList

end Account

namespace Run

theorem has_missing (details : List String) :
    Has standing (details.forM fun detail => emit (.prerequisiteMissing detail)) fun v _ v' =>
      v' = v := by
  induction details with
  | nil => exact (Has.pure ()).congr fun v _ v' => by simp
  | cons detail details ih => exact Has.silent_bind (has_emit _) ih

/-- The end of a run, in which its outcome is put together. -/
theorem has_outcome (plan : Plan) (sourceCount : Nat) (reports : List Report) :
    Has standing
      (do
        let s ← get
        emit (.done reports.length s.failures.length (s.tracker.failed.map (·.name))
          (totalText s.tracker.phases))
        return (⟨plan.output, plan.image, sourceCount, reports, s.failures⟩ : Outcome))
      fun v outcome v' =>
        outcome = ⟨plan.output, plan.image, sourceCount, reports, v.failures⟩ ∧ v' = v := by
  refine Has.get_bind (S := fun (v₀ v : Standing) (outcome : Outcome) v' =>
    outcome = ⟨plan.output, plan.image, sourceCount, reports, v₀.failures⟩ ∧ v' = v) fun s => ?_
  exact Has.silent_bind (has_emit _) (Has.pure _)

theorem has_survey (plan : Plan) :
    Has standing (survey plan) fun v sources v' =>
      (∃ rows, v.scene.files.at? plan.root = .ok (some (.dir rows)) ∧
        Sources.rowsDepth (Sources.room plan.root) plan.root rows ≤ stackLimit ∧
        sources = (Sources.below plan.root rows).sources) ∧ v' = v := by
  refine (Has.get_bind_of fun s =>
    Has.silent_bind (has_missing _) <| Has.silent_bind (has_phase _) <|
    (has_lift (Sources.has_discover stackLimit plan.root)).bind fun sources =>
    Has.silent_bind (has_phase _) <| Has.silent_bind (has_phase _) (Has.pure sources)).congr
    fun v sources v' => ⟨?_, ?_⟩
  · rintro ⟨_, _, ⟨_, ⟨hrows, rfl⟩, rfl⟩, rfl, rfl⟩
    exact ⟨hrows, rfl⟩
  · rintro ⟨hrows, rfl⟩
    exact ⟨_, _, ⟨_, ⟨hrows, rfl⟩, rfl⟩, rfl, rfl⟩

/-- The image comes last, and what came of it is in the record of the phases only. -/
theorem has_image (plan : Plan) (sourceCount : Nat) (reports : List Report) :
    Has standing
      (do
        match plan.image with
        | none => phase (.skip "image" "disabled")
        | some image =>
          phase (.start "image")
          match ← lift (plan.layout.draw plan.output image) with
          | some 0 => phase (.complete "image" image)
          | status =>
            let text := (status.map toString).getD "None"
            phase (.fail "image" ("dot exit status " ++ text))
        let s ← get
        emit (.done reports.length s.failures.length (s.tracker.failed.map (·.name))
          (totalText s.tracker.phases))
        return (⟨plan.output, plan.image, sourceCount, reports, s.failures⟩ : Outcome))
      fun v outcome v' =>
        (plan.image.isSome → v.scene.tools.layout.status?.isSome) ∧
        outcome = ⟨plan.output, plan.image, sourceCount, reports, v.failures⟩ ∧
        v' = { v with scene := { v.scene with commands := v.scene.commands ++
          (plan.image.map (plan.layout.command plan.output)).toList } } := by
  have hdone := has_outcome plan sourceCount reports
  cases himage : plan.image with
  | none =>
    rw [himage] at hdone
    refine (Has.silent_bind (has_phase _) hdone).congr fun v outcome v' => ?_
    simp
  | some image =>
    rw [himage] at hdone
    have hdraw := has_lift (plan.layout.has_draw plan.output image)
    refine Has.silent_bind (has_phase _) ((hdraw.bind
      (S := fun _ v (outcome : Outcome) v' =>
        outcome = ⟨plan.output, some image, sourceCount, reports, v.failures⟩ ∧ v' = v)
      fun status => ?_).congr fun v outcome v' => ⟨?_, ?_⟩)
    · split
      · exact Has.silent_bind (has_phase _) hdone
      · exact Has.silent_bind (has_phase _) hdone
    · rintro ⟨status, _, ⟨_, ⟨hstatus, rfl⟩, rfl⟩, rfl, rfl⟩
      exact ⟨fun _ => Option.isSome_iff_exists.2 ⟨status, hstatus⟩, rfl, rfl⟩
    · rintro ⟨hstatus, rfl, rfl⟩
      obtain ⟨status, hstatus⟩ := Option.isSome_iff_exists.1 (hstatus rfl)
      exact ⟨status, _, ⟨_, ⟨hstatus, rfl⟩, rfl⟩, rfl, rfl⟩

/-- The rest of a run depends on the outputs that are read. -/
theorem has_conclude (plan : Plan) (sourceCount : Nat) (paths : List Path) :
    Has standing (conclude plan sourceCount paths) fun v outcome v' =>
      ∃ findings extracted written, findings.map (·.1) = paths ∧
        v.scene.files.Shows findings extracted ∧
        extracted.write (.ofText plan.output)
          (plan.drawing.render (findings.filterMap (·.2.report?))).toUTF8 = .ok written ∧
        (plan.image.isSome → v.scene.tools.layout.status?.isSome) ∧
        outcome = ⟨plan.output, plan.image, sourceCount, findings.filterMap (·.2.report?),
          v.failures ++ findings.filterMap fun row => row.2.failureAt? row.1⟩ ∧
        v' = ⟨⟨written, v.scene.tools, v.scene.commands ++
            (plan.image.map (plan.layout.command plan.output)).toList⟩,
          v.failures ++ findings.filterMap fun row => row.2.failureAt? row.1⟩ := by
  refine (Has.silent_bind (has_phase _) <| Has.silent_bind (has_phase _) <|
    (has_extractAll paths).bind fun reports =>
    Has.silent_bind (has_phase _) <| Has.silent_bind (has_phase _) <|
    (has_writeGraph plan.output (plan.drawing.render reports)).bind fun _ =>
    Has.silent_bind (has_phase _) (has_image plan sourceCount reports)).congr
    fun v outcome v' => ⟨?_, ?_⟩
  · rintro ⟨_, _, ⟨findings, extracted, hpaths, hshows, rfl, rfl⟩, _, _, ⟨written, hwrite, rfl⟩,
      himage, rfl, rfl⟩
    exact ⟨findings, extracted, written, hpaths, hshows, hwrite, himage, rfl, rfl⟩
  · rintro ⟨findings, extracted, written, hpaths, hshows, hwrite, himage, rfl, rfl⟩
    exact ⟨_, _, ⟨findings, extracted, hpaths, hshows, rfl, rfl⟩, (), _, ⟨written, hwrite, rfl⟩,
      himage, rfl, rfl⟩

theorem has_run (plan : Plan) :
    Has standing (run plan) fun v outcome v' =>
      ∃ a : Account plan v.scene.tools v.scene.files,
        outcome = ⟨plan.output, plan.image, a.results.length, a.reports, v.failures ++ a.failures⟩ ∧
        v' = ⟨⟨a.written, v.scene.tools, v.scene.commands ++ a.commands⟩,
          v.failures ++ a.failures⟩ := by
  refine ((has_survey plan).bind fun sources =>
    (has_compileAll plan.compiler plan.jobs sources).bind fun paths =>
    has_conclude plan sources.length paths).congr fun v outcome v' => ⟨?_, ?_⟩
  · rintro ⟨_, _, ⟨⟨rows, hroot, hshallow, hsources⟩, rfl⟩, _, _,
      ⟨results, compiled, rfl, hcompiles, rfl, rfl⟩, findings, extracted, written, hpaths, hshows,
      hwrite, himage, rfl, rfl⟩
    refine ⟨⟨rows, results, findings, compiled, extracted, written, hroot, hshallow, hsources,
      hcompiles, hpaths, hshows, hwrite, himage⟩, ?_, ?_⟩
    · simp [Account.reports, Account.failures]
    · simp [Account.commands, Account.failures]
  · rintro ⟨a, rfl, rfl⟩
    refine ⟨a.results.map (·.1), _, ⟨⟨a.rows, a.root_eq, a.shallow, a.sources_eq⟩, rfl⟩, _, _,
      ⟨a.results, a.compiled, rfl, a.compiles, rfl, rfl⟩, a.findings, a.extracted, a.written,
      a.paths_eq, a.shows, a.write_eq, a.image_drawn, ?_, ?_⟩
    · simp [Account.reports, Account.failures]
    · simp [Account.commands, Account.failures]

/-- If all is as in an account until the graph is to be written, the run ends with the fault of
that. -/
theorem run_error_of_write {plan : Plan} {s : Session} {rows : List (String × Entry)}
    {results : List (Path × Except CompileError Path)} {findings : List (Path × Finding)}
    {compiled extracted : Entry} {fault : Fault}
    (hroot : s.world.files.at? plan.root = .ok (some (.dir rows)))
    (hshallow : Sources.rowsDepth (Sources.room plan.root) plan.root rows ≤ stackLimit)
    (hsources : results.map (·.1) = (Sources.below plan.root rows).sources)
    (hcompiles : plan.compiler.CompilesAll s.world.tools s.world.files results compiled)
    (hpaths : findings.map (·.1) = results.filterMap compiledPath?)
    (hshows : compiled.Shows findings extracted)
    (hwrite : extracted.write (.ofText plan.output)
      (plan.drawing.render (findings.filterMap (·.2.report?))).toUTF8 = .error fault) :
    ∃ s', (run plan).run s = (.error fault, s') := by
  refine (has_survey plan).bind_error ⟨⟨rows, hroot, hshallow, hsources⟩, rfl⟩ fun s₁ hs₁ => ?_
  refine (has_compileAll plan.compiler plan.jobs _).bind_error
    ⟨results, compiled, rfl, by rw [hs₁]; exact hcompiles, rfl, rfl⟩ fun s₂ hs₂ => ?_
  refine (has_phase _).bind_error (a := ()) rfl fun s₃ hs₃ => ?_
  refine (has_phase _).bind_error (a := ()) rfl fun s₄ hs₄ => ?_
  refine (has_extractAll _).bind_error
    ⟨findings, extracted, hpaths, by rw [hs₄, hs₃, hs₂]; exact hshows, rfl, rfl⟩ fun s₅ hs₅ => ?_
  refine (has_phase _).bind_error (a := ()) rfl fun s₆ hs₆ => ?_
  refine (has_phase _).bind_error (a := ()) rfl fun s₇ hs₇ => ?_
  have hfiles : s₇.world.files = extracted :=
    congrArg (·.scene.files) (hs₇.trans (hs₆.trans hs₅))
  obtain ⟨s₈, hfault⟩ := writeGraph_error (by rw [hfiles]; exact hwrite)
  exact ⟨s₈, by rw [run_bind, hfault]⟩

end Run

section World

variable {plan : Plan} {w : World} {tracker : Tracker} {events : List Event}

theorem Run.exists_account_of_run {outcome : Outcome} {s : Session}
    (h : (run plan).run ⟨w, tracker, events, []⟩ = (.ok outcome, s)) :
    ∃ a : Account plan w.tools w.files, outcome.reports = a.reports ∧
      outcome.failures = a.failures ∧ s.world.files = a.written := by
  obtain ⟨a, rfl, hstanding⟩ := (has_run plan).sound h
  exact ⟨a, rfl, rfl, congrArg (·.scene.files) hstanding⟩

theorem Account.exists_run (a : Account plan w.tools w.files) (tracker : Tracker)
    (events : List Event) :
    ∃ outcome s, (Run.run plan).run ⟨w, tracker, events, []⟩ = (.ok outcome, s) ∧
      outcome.reports = a.reports ∧ outcome.failures = a.failures := by
  obtain ⟨s, hrun, -⟩ := (Run.has_run plan).complete (s := ⟨w, tracker, events, []⟩) ⟨a, rfl, rfl⟩
  exact ⟨_, s, hrun, rfl, rfl⟩

end World

/-! ## Every source once -/

/-- Rows that go either here or there. -/
theorem length_filterMap_add {α β γ : Type} {f : α → Option β} {g : α → Option γ}
    (hsplit : ∀ x, (f x).isSome = !(g x).isSome) (rows : List α) :
    (rows.filterMap f).length + (rows.filterMap g).length = rows.length := by
  induction rows with
  | nil => rfl
  | cons x rows ih =>
    have hx := hsplit x
    cases hf : f x with
    | none =>
      obtain ⟨c, hg⟩ := Option.isSome_iff_exists.1 (show (g x).isSome = true by simpa [hf] using hx)
      rw [List.filterMap_cons_none hf, List.filterMap_cons_some hg, List.length_cons,
        List.length_cons, ← ih, Nat.add_assoc]
    | some b =>
      have hg : g x = none := by simpa [hf] using hx
      rw [List.filterMap_cons_some hf, List.filterMap_cons_none hg, List.length_cons,
        List.length_cons, ← ih, Nat.add_right_comm]

/-- The output of a source that was compiled is beside the source, and was seen there. -/
theorem Compiler.CompilesAll.output_eq {c : Compiler} {tools : Toolbox} {files files' : Entry}
    {results : List (Path × Except CompileError Path)}
    (hall : c.CompilesAll tools files results files') {source path : Path}
    (hmem : (source, .ok path) ∈ results) :
    path = World.corePath source.parent source ∧ path.hasZero = false := by
  induction hall with
  | nil => cases hmem
  | cons hfirst hrest ih =>
    rcases List.mem_cons.1 hmem with heq | hmem
    · cases heq
      obtain ⟨ending, -, hjudges⟩ := hfirst
      cases hjudges with
      | produced hentry => exact ⟨rfl, Entry.hasZero_of_at? hentry⟩
    · exact ih hmem

theorem Account.length_results {plan : Plan} {tools : Toolbox} {files : Entry}
    (a : Account plan tools files) :
    a.results.length = a.reports.length + a.failures.length := by
  have hcompiled : (a.results.filterMap compiledPath?).length +
      (a.results.filterMap compileFailure?).length = a.results.length :=
    length_filterMap_add (by rintro ⟨source, _ | path⟩ <;> rfl) a.results
  have hread : (a.findings.filterMap (·.2.report?)).length +
      (a.findings.filterMap fun row => row.2.failureAt? row.1).length = a.findings.length :=
    length_filterMap_add (by rintro ⟨path, _ | r⟩ <;> rfl) a.findings
  have hpaths : a.findings.length = (a.results.filterMap compiledPath?).length := by
    rw [← a.paths_eq, List.length_map]
  rw [Account.reports, Account.failures, List.length_append]
  omega

/-- A run that ends without a fault accounts for every source that it found. Each was compiled
once; each is either a report or a failure, both in the order of the sources, but the failures to
compile come before the others; and each failure names the source or its output. -/
theorem run_accounts {plan : Plan} {w : World} {tracker : Tracker} {events : List Event}
    {outcome : Outcome} {s' : Session}
    (h : (Run.run plan).run ⟨w, tracker, events, []⟩ = (.ok outcome, s')) :
    ∃ a : Account plan w.tools w.files,
      outcome.sourceCount = (Sources.below plan.root a.rows).sources.length ∧
      outcome.sourceCount = outcome.reports.length + outcome.failures.length ∧
      outcome.reports = a.findings.filterMap (·.2.report?) ∧
      outcome.failures = a.results.filterMap compileFailure? ++
        a.findings.filterMap (fun row => row.2.failureAt? row.1) ∧
      (∀ source path, (source, .ok path) ∈ a.results →
        path = World.corePath source.parent source) ∧
      s'.world.commands = w.commands ++
        ((Sources.below plan.root a.rows).sources.map plan.compiler.command ++
          (plan.image.map (plan.layout.command plan.output)).toList) := by
  obtain ⟨a, rfl, hstanding⟩ := (Run.has_run plan).sound h
  have hcommands : s'.world.commands = w.commands ++ a.commands :=
    congrArg (·.scene.commands) hstanding
  refine ⟨a, ?_, ?_, rfl, rfl, fun source path hmem => (a.compiles.output_eq hmem).1, ?_⟩
  · rw [← a.sources_eq, List.length_map]
  · exact a.length_results
  · rw [hcommands, ← a.sources_eq, List.map_map]
    rfl

/-- Of two sources one is not compiled, and the output of the other is a directory. -/
theorem run_accounts_two :
    let files : Entry := .dir [("a.erl", .file .empty), ("sub", .dir [("b.erl", .file .empty)])]
    let compiling (source : String) : Behaviour :=
      if source = "a.erl" then ⟨.exited 1 none (some "no"), none⟩
      else ⟨.exited 0 none none, some .dir⟩
    let plan : Plan := ⟨.standard, .standard, .standard, 4, ⟨"", []⟩, "g.dot", none⟩
    ∃ outcome s',
      (Run.run plan).run ⟨⟨files, ⟨compiling, .missing, []⟩, [], []⟩, .ofClock (.ofList []), [],
        []⟩ = (.ok outcome, s') ∧
      outcome.failures = [⟨"a.erl", .compile, "Error compiling a.erl (rc=1): no"⟩,
        ⟨"sub/b.core", .read, "[Errno 21] Is a directory: 'sub/b.core'"⟩] ∧
      outcome.sourceCount = outcome.reports.length + outcome.failures.length := by
  intro files compiling plan
  let rows : List (String × Entry) :=
    [("a.erl", .file .empty), ("sub", .dir [("b.erl", .file .empty), ("b.core", .empty)])]
  have hsub : Sources.isSearched (Sources.room plan.root) plan.root "sub" = true := by decide
  let a : Account plan ⟨compiling, .missing, []⟩ files :=
    { rows := [("a.erl", .file .empty), ("sub", .dir [("b.erl", .file .empty)])]
      results := [(⟨"", ["a.erl"]⟩, .error ⟨"a.erl", some 1, "no"⟩),
        (⟨"", ["sub", "b.erl"]⟩, .ok ⟨"", ["sub", "b.core"]⟩)]
      findings := [(⟨"", ["sub", "b.core"]⟩,
        .failure .read "[Errno 21] Is a directory: 'sub/b.core'")]
      compiled := .dir rows
      extracted := .dir rows
      written := .dir (rows ++ [("g.dot", .file (Drawing.standard.render []).toUTF8)])
      root_eq := rfl
      shallow := by decide
      sources_eq := by
        simp [Sources.below, Sources.search, Sources.merge, Sources.ofFiles, Sources.ofDirs,
          Sources.ofRow, Sources.ofEntry, Sources.inOrder, hsub]
        rfl
      compiles := .cons ⟨_, .bare rfl, .failed (by decide)⟩
        (.cons ⟨_, .left rfl rfl rfl, .produced rfl⟩ (.nil _))
      paths_eq := rfl
      shows := .cons ⟨.unread (.isDirectory "sub/b.core"), rfl⟩ (.nil _)
      write_eq := by
        simp only [plan, rows]
        rfl
      image_drawn := by simp [plan] }
  obtain ⟨s', hrun, -⟩ := (Run.has_run plan).complete
    (s := ⟨⟨files, ⟨compiling, .missing, []⟩, [], []⟩, .ofClock (.ofList []), [], []⟩) ⟨a, rfl, rfl⟩
  obtain ⟨_, -, hcount, -⟩ := run_accounts hrun
  exact ⟨_, s', hrun, rfl, hcount⟩

end CallGraph
