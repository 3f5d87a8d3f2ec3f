import CallGraph.Proofs.Collection
import CallGraph.Proofs.Run.Account

/-!
What stops a run. A unit that fails is left out, and the graph of the others is written; but
directories that are nested too deeply, a source that is refused, a text in which something stands
for no value, a module that cannot be described, an output that cannot be written and a layout tool
that is not run or does not write text end the whole run. Nothing else does.
-/

namespace CallGraph

open Run (compiledPath?)

/-! ## Compiling -/

/-- Why a source is refused: the compiler is there and is not run, what it writes is not text, or the
place of its output cannot be looked at. -/
inductive Toolbox.Refuses (tools : Toolbox) (source : Path) (files : Entry) : Prop
  | denied (hdenied : (tools.compiling source.text).ending = .denied)
  | garbled (hgarbled : (tools.compiling source.text).ending = .garbled)
  | unseen {output errors : Option String} {files' : Entry} {e : OsError}
    (hruns : tools.Ends source files (.exited 0 output errors) files')
    (hentry : files'.at? (World.corePath source.parent source) = .error e)

namespace Compiler

variable {c : Compiler} {tools : Toolbox} {source : Path} {files : Entry}

theorem compiles_det (c : Compiler) (tools : Toolbox) (files : Entry) (source : Path)
    (r₁ : Except CompileError Path) (files₁ : Entry) (r₂ : Except CompileError Path) (files₂ : Entry)
    (h₁ : c.Compiles tools source files r₁ files₁) (h₂ : c.Compiles tools source files r₂ files₂) :
    r₁ = r₂ ∧ files₁ = files₂ := by
  obtain ⟨hr, hscene⟩ := (c.has_compile source).unique ⟨files, tools, [], []⟩ ⟨files₁, h₁, rfl⟩
    ⟨files₂, h₂, rfl⟩
  cases hscene
  exact ⟨hr, rfl⟩

theorem ends_unique {e₁ e₂ : Ending} {files₁ files₂ : Entry}
    (h₁ : tools.Ends source files e₁ files₁) (h₂ : tools.Ends source files e₂ files₂) :
    e₁ = e₂ ∧ files₁ = files₂ := by
  obtain ⟨he, hscene⟩ := (World.has_runCompiler (standard.command source) source).unique
    ⟨files, tools, [], []⟩ ⟨files₁, h₁, rfl⟩ ⟨files₂, h₂, rfl⟩
  cases hscene
  exact ⟨he, rfl⟩

/-- How the compiler ends, whatever becomes of its product. -/
theorem exists_ends (tools : Toolbox) (source : Path) (files : Entry) :
    ∃ ending files', tools.Ends source files ending files' ∧
      (ending = (tools.compiling source.text).ending ∨
        ending = (tools.compiling source.text).ending.unplaced) := by
  cases hown : (tools.compiling source.text).ending.isOwn with
  | false => exact ⟨_, _, .cut hown, .inl rfl⟩
  | true =>
    cases hproduct : (tools.compiling source.text).product with
    | none => exact ⟨_, _, .bare hproduct, .inl rfl⟩
    | some product =>
      cases hleave : files.leave (World.corePath source.parent source) product with
      | ok files' => exact ⟨_, _, .left hown hproduct hleave, .inl rfl⟩
      | error fault => exact ⟨_, _, .displaced hown hproduct hleave, .inr rfl⟩

theorem eq_or_unplaced_of_ends {ending : Ending} {files' : Entry}
    (h : tools.Ends source files ending files') :
    ending = (tools.compiling source.text).ending ∨
      ending = (tools.compiling source.text).ending.unplaced := by
  cases h with
  | bare | cut | left => exact .inl rfl
  | displaced => exact .inr rfl

/-- A source that is compiled is not refused. -/
theorem Compiles.not_refuses {result : Except CompileError Path} {files' : Entry}
    (h : c.Compiles tools source files result files') : ¬ tools.Refuses source files := by
  obtain ⟨ending, hruns, hjudges⟩ := h
  intro hrefuses
  cases hrefuses with
  | denied hending | garbled hending =>
    have hends := eq_or_unplaced_of_ends hruns
    rw [hending] at hends
    obtain rfl | rfl := hends <;> cases hjudges
  | unseen hruns' hentry =>
    obtain ⟨rfl, rfl⟩ := ends_unique hruns hruns'
    cases hjudges with
    | failed hstatus => exact hstatus rfl
    | produced hentry' | unproduced hentry' =>
      rw [hentry] at hentry'
      cases hentry'

/-- What is made of an exit, if the source is not refused. -/
theorem exists_judges (c : Compiler) (hrefuses : ¬ tools.Refuses source files) {status : Int}
    {output errors : Option String} {files' : Entry}
    (hruns : tools.Ends source files (.exited status output errors) files') :
    ∃ result, c.Judges source files' (.exited status output errors) result := by
  by_cases hstatus : status = 0
  · subst hstatus
    cases hentry : files'.at? (World.corePath source.parent source) with
    | error e => exact absurd (.unseen hruns hentry) hrefuses
    | ok e =>
      cases e with
      | none => exact ⟨_, .unproduced hentry⟩
      | some e => exact ⟨_, .produced hentry⟩
  · exact ⟨_, .failed hstatus⟩

/-- A source that is not refused is compiled, with one result or another. -/
theorem exists_compiles (c : Compiler) (hrefuses : ¬ tools.Refuses source files) :
    ∃ result files', c.Compiles tools source files result files' := by
  obtain ⟨ending, files', hruns, hends⟩ := exists_ends tools source files
  have hjudges : ∃ result, c.Judges source files' ending result := by
    cases hending : (tools.compiling source.text).ending with
    | denied => exact absurd (.denied hending) hrefuses
    | garbled => exact absurd (.garbled hending) hrefuses
    | timedOut =>
      rw [hending] at hends
      obtain rfl | rfl := hends <;> exact ⟨_, .timedOut⟩
    | missing =>
      rw [hending] at hends
      obtain rfl | rfl := hends <;> exact ⟨_, .missing⟩
    | exited status output errors =>
      rw [hending] at hends
      obtain rfl | rfl := hends <;> exact exists_judges c hrefuses hruns
  obtain ⟨result, hjudges⟩ := hjudges
  exact ⟨result, files', ending, hruns, hjudges⟩

end Compiler

/-! ## Reading -/

theorem Finding.Of.unique {path : Path} {r : Except Fault ByteArray} {f₁ f₂ : Finding}
    (h₁ : f₁.Of path r) (h₂ : f₂.Of path r) : f₁ = f₂ := by
  cases h₁ with
  | unread =>
    cases h₂
    rfl
  | malformed hparse =>
    cases h₂ with
    | malformed hparse' =>
      rw [hparse] at hparse'
      cases hparse'
      rfl
    | parsed hparse' =>
      rw [hparse] at hparse'
      cases hparse'
  | parsed hparse hreport =>
    cases h₂ with
    | malformed hparse' =>
      rw [hparse] at hparse'
      cases hparse'
    | parsed hparse' hreport' =>
      rw [hparse] at hparse'
      cases hparse'
      rw [hreport] at hreport'
      cases hreport'
      rfl

theorem Entry.shows_det (files : Entry) (path : Path) (f₁ : Finding) (files₁ : Entry) (f₂ : Finding)
    (files₂ : Entry) (h₁ : f₁.Of path (files.read path) ∧ files₁ = files.cleared path)
    (h₂ : f₂.Of path (files.read path) ∧ files₂ = files.cleared path) :
    f₁ = f₂ ∧ files₁ = files₂ :=
  ⟨h₁.1.unique h₂.1, h₁.2.trans h₂.2.symm⟩

/-- A file that ends a run. Something in it stands for no value (an escape beyond the last character,
or an integer with too many digits), or it has a module that cannot be described. -/
inductive Entry.Fatal (files : Entry) (path : Path) : Prop
  | valueless {bytes : ByteArray} {e : ConversionError} (hread : files.read path = .ok bytes)
    (hparse : Module.ofText (some path.text) (Text.ofFile bytes) = .error (.conversion e))
  | undescribed {bytes : ByteArray} {m : Ann Module} (hread : files.read path = .ok bytes)
    (hparse : Module.ofText (some path.text) (Text.ofFile bytes) = .ok m)
    (hdeep : ¬ m.node.Describable stackLimit)

theorem Finding.Of.not_fatal {files : Entry} {path : Path} {finding : Finding}
    (hfinding : finding.Of path (files.read path)) : ¬ files.Fatal path := by
  intro hfatal
  cases hfatal with
  | valueless hread hparse =>
    rw [hread] at hfinding
    cases hfinding with
    | malformed hparse' | parsed hparse' =>
      rw [hparse] at hparse'
      cases hparse'
  | undescribed hread hparse hdeep =>
    rw [hread] at hfinding
    cases hfinding with
    | malformed hparse' =>
      rw [hparse] at hparse'
      cases hparse'
    | parsed hparse' hreport =>
      rw [hparse] at hparse'
      cases hparse'
      rw [Module.report_of_not_describable hdeep] at hreport
      cases hreport

/-- Whatever is at a path, something is found unless the file is fatal. -/
theorem exists_finding {files : Entry} {path : Path} (hzero : path.hasZero = false)
    (hfatal : ¬ files.Fatal path) : ∃ finding : Finding, finding.Of path (files.read path) := by
  cases hread : files.read path with
  | error fault =>
    rcases Entry.onPlace_eq_error hread with hzero' | ⟨e, rfl⟩
    · rw [hzero'] at hzero
      cases hzero
    · exact ⟨_, .unread e⟩
  | ok bytes =>
    cases hparse : Module.ofText (some path.text) (Text.ofFile bytes) with
    | ok m =>
      by_cases hdescribable : m.node.Describable stackLimit
      · exact ⟨_, .parsed hparse (Module.report_of_describable hdescribable)⟩
      · exact absurd (.undescribed hread hparse hdescribable) hfatal
    | error e =>
      cases e with
      | malformed d => exact ⟨_, .malformed hparse⟩
      | conversion e => exact absurd (.valueless hread hparse) hfatal

/-! ## The working directory -/

theorem Entry.isDir_leave {files files' : Entry} {p : Path} {product : Product}
    (hdir : files.isDir = true) (h : files.leave p product = .ok files') : files'.isDir = true := by
  cases product with
  | file bytes => exact isDir_of_write hdir h
  | dir => exact isDir_of_makeDir hdir h

theorem Entry.isDir_cleared {files : Entry} (hdir : files.isDir = true) (path : Path) :
    (files.cleared path).isDir = true := by
  rw [cleared]
  split
  case h_1 files' hremove => exact isDir_of_remove hdir hremove
  case h_2 => exact hdir

theorem Behaviour.RunsTo.isDir {b : Behaviour} {core : Path} {files files' : Entry}
    {ending : Ending} (h : b.RunsTo core files ending files') (hdir : files.isDir = true) :
    files'.isDir = true := by
  cases h with
  | bare | cut | displaced => exact hdir
  | left _ _ hleave => exact Entry.isDir_leave hdir hleave

theorem Compiler.Compiles.isDir {c : Compiler} {tools : Toolbox} {source : Path}
    {files files' : Entry} {result : Except CompileError Path}
    (h : c.Compiles tools source files result files') (hdir : files.isDir = true) :
    files'.isDir = true := by
  obtain ⟨ending, hruns, -⟩ := h
  exact hruns.isDir hdir

theorem Entry.Shows.isDir {files files' : Entry} {findings : List (Path × Finding)}
    (h : files.Shows findings files') (hdir : files.isDir = true) : files'.isDir = true := by
  refine Pass.invariant (P := fun files => files.isDir = true) ?_ h hdir
  rintro files path finding _ ⟨-, rfl⟩ hdir
  exact isDir_cleared hdir path

namespace Account

variable {plan : Plan} {tools : Toolbox} {files : Entry}

theorem rows_eq (a : Account plan tools files) {rows : List (String × Entry)}
    (hroot : files.at? plan.root = .ok (some (.dir rows))) : a.rows = rows := by
  have hrows := a.root_eq.symm.trans hroot
  simpa only [Except.ok.injEq, Option.some.injEq, Entry.dir.injEq] using hrows

/-- The graph is in its file when the run is over. -/
theorem read_written (a : Account plan tools files) :
    a.written.read (.ofText plan.output) = .ok (plan.drawing.render a.reports).toUTF8 := by
  have hfiles : files.isDir = true := Entry.isDir_of_at? a.root_eq
  have hcompiled : a.compiled.isDir = true :=
    a.compiles.invariant (fun _ _ _ _ hstep => hstep.isDir) hfiles
  exact Entry.read_of_write (a.shows.isDir hcompiled) a.write_eq

end Account

/-! ## What stops a run -/

/-- What stops a run with these tools and files, in which the directory where sources are looked for
has these entries. -/
inductive Stops (plan : Plan) (tools : Toolbox) (files : Entry) (rows : List (String × Entry)) : Prop
  | nested (hdepth : stackLimit < Sources.rowsDepth (Sources.room plan.root) plan.root rows)
  /-- A source is refused, when those before it are compiled. -/
  | refused {results : List (Path × Except CompileError Path)} {compiled : Entry} {source : Path}
    {rest : List Path}
    (hsources : (Sources.below plan.root rows).sources = results.map (·.1) ++ source :: rest)
    (hcompiles : plan.compiler.CompilesAll tools files results compiled)
    (hrefuses : tools.Refuses source compiled)
  /-- An output is fatal, when those before it are read. -/
  | fatal {results : List (Path × Except CompileError Path)} {compiled : Entry}
    {findings : List (Path × Finding)} {extracted : Entry} {path : Path} {rest : List Path}
    (hsources : results.map (·.1) = (Sources.below plan.root rows).sources)
    (hcompiles : plan.compiler.CompilesAll tools files results compiled)
    (hpaths : results.filterMap compiledPath? = findings.map (·.1) ++ path :: rest)
    (hshows : compiled.Shows findings extracted) (hfatal : extracted.Fatal path)
  /-- The graph cannot be written. -/
  | unwritable {results : List (Path × Except CompileError Path)} {compiled : Entry}
    {findings : List (Path × Finding)} {extracted : Entry} {fault : Fault}
    (hsources : results.map (·.1) = (Sources.below plan.root rows).sources)
    (hcompiles : plan.compiler.CompilesAll tools files results compiled)
    (hpaths : findings.map (·.1) = results.filterMap compiledPath?)
    (hshows : compiled.Shows findings extracted)
    (hwrite : extracted.write (.ofText plan.output)
      (plan.drawing.render (findings.filterMap (·.2.report?))).toUTF8 = .error fault)
  /-- The layout tool is needed, and it is not run or what it writes is not text. -/
  | undrawn (himage : plan.image.isSome = true)
    (hlayout : tools.layout = .denied ∨ tools.layout = .garbled)

/-- Compiling and reading have one way to go. -/
theorem Compiler.CompilesAll.unique {c : Compiler} {tools : Toolbox} {files files₁ files₂ : Entry}
    {results₁ results₂ : List (Path × Except CompileError Path)}
    (h₁ : c.CompilesAll tools files results₁ files₁) (h₂ : c.CompilesAll tools files results₂ files₂)
    (hsources : results₁.map (·.1) = results₂.map (·.1)) :
    results₁ = results₂ ∧ files₁ = files₂ :=
  Pass.unique (compiles_det c tools) h₁ h₂ hsources

theorem Entry.Shows.unique {files files₁ files₂ : Entry} {findings₁ findings₂ : List (Path × Finding)}
    (h₁ : files.Shows findings₁ files₁) (h₂ : files.Shows findings₂ files₂)
    (hpaths : findings₁.map (·.1) = findings₂.map (·.1)) :
    findings₁ = findings₂ ∧ files₁ = files₂ :=
  Pass.unique shows_det h₁ h₂ hpaths

/-- What was accounted for did not stop. -/
theorem Account.not_stops {plan : Plan} {tools : Toolbox} {files : Entry}
    (a : Account plan tools files) :
    ¬ Stops plan tools files a.rows := by
  intro hstops
  cases hstops with
  | nested hdepth => exact Nat.not_lt.2 a.shallow hdepth
  | refused hsources hcompiles hrefuses =>
    obtain ⟨result, files', hsource⟩ := a.compiles.not_stuck (plan.compiler.compiles_det tools)
      (a.sources_eq.trans hsources) hcompiles
    exact hsource.not_refuses hrefuses
  | fatal hsources hcompiles hpaths hshows hfatal =>
    obtain ⟨rfl, rfl⟩ := hcompiles.unique a.compiles (hsources.trans a.sources_eq.symm)
    obtain ⟨finding, files', hfinding, -⟩ := a.shows.not_stuck Entry.shows_det
      (a.paths_eq.trans hpaths) hshows
    exact hfinding.not_fatal hfatal
  | unwritable hsources hcompiles hpaths hshows hwrite =>
    obtain ⟨rfl, rfl⟩ := hcompiles.unique a.compiles (hsources.trans a.sources_eq.symm)
    obtain ⟨rfl, rfl⟩ := hshows.unique a.shows (hpaths.trans a.paths_eq.symm)
    rw [a.write_eq] at hwrite
    cases hwrite
  | undrawn himage hlayout =>
    have hstatus := a.image_drawn himage
    obtain hlayout | hlayout := hlayout <;>
      rw [hlayout] at hstatus <;> cases hstatus

theorem Sources.below_file (here : Path) (name : String) (bytes : ByteArray) :
    below here [(name, .file bytes)] = ofFile here name := by
  simp [below, search, merge, ofFiles, ofDirs, ofRow, ofEntry, inOrder, Found.concat, Found.append,
    Found.none]

end CallGraph
