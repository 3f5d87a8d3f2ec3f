import CallGraph.Proofs.RoundTrip
import CallGraph.Proofs.Run.Units
import Mathlib.Data.List.Nodup

/-!
A unit that fails contributes nothing. A run in a world from which the failing sources have been taken
away gives the same reports and writes the same graph, if the graph can be written there at all.
-/

namespace CallGraph

open Entry
open Run (compiledPath? compileFailure?)

/-- Whether a failure is that of a source. A failure to compile names the source, any other names its
output. -/
def UnitFailure.concerns (f : UnitFailure) (source : Path) : Bool :=
  f.path == match f.point with
    | .compile => source.text
    | .parse | .read => (World.corePath source.parent source).text

/-- Whether a source is among the failures. -/
def Outcome.leavesOut (o : Outcome) (source : Path) : Bool := o.failures.any (·.concerns source)

/-! ## Taking sources away -/

/-- The files without the one to which the components of a path lead. -/
def Entry.without (files : Entry) (p : Path) : Entry :=
  match follow files [] p.parts with
  | .found names _ => files.erase names
  | .missing _ | .lost | .blocked | .overlong => files

namespace Entry.Home

variable {files : Entry} {root : Path} {home : List String} {rows : List (String × Entry)}
  (hhome : files.Home root home rows)
include hhome

/-- To take a source away changes nothing but its cell. -/
theorem without_source {top : Entry} {source : Path} (site : SourceSite files root home source)
    (htop : top.Proper) (hkeeps : files.Keeps top)
    (hcell : top.seen (root.cell home source) ≠ some .empty) :
    (top.without source).Proper ∧ files.Keeps (top.without source) ∧
      ∀ m, (top.without source).seen m =
        if m = root.cell home source then none else top.seen m := by
  have hname := site.isName site.name (by simp)
  have hfollow : follow top [] source.parts = top.spot (root.cell home source) := by
    rw [site.cell_source]
    have hdown := hhome.follow_down hkeeps site.dir_eq hname.ne_dots
    rw [if_neg (Nat.not_lt.2 hname.short)] at hdown
    exact (congrArg (fun p : Path => follow top [] p.parts) site.source_eq).trans hdown
  have hne : ∀ m, files.seen m = some .empty → m ≠ root.cell home source := by
    rintro m hm rfl
    rw [site.cell_source, seen_of_get? site.file_eq] at hm
    cases hm
  cases hget : top.get? (root.cell home source) with
  | none =>
    have hwithout : top.without source = top := by rw [without, hfollow, spot, hget]
    rw [hwithout]
    refine ⟨htop, hkeeps, fun m => ?_⟩
    split
    case isTrue hm => rw [hm, seen_eq_none.2 hget]
    case isFalse => rfl
  | some e =>
    cases e with
    | dir => exact absurd (seen_of_get? hget) hcell
    | file bytes =>
      have hwithout : top.without source = top.erase (root.cell home source) := by
        rw [without, hfollow, spot, hget]
      have hseen := seen_erase (by simp [site.cell_source]) hget
      rw [hwithout]
      refine ⟨htop.erase _, fun m hm => ?_, hseen⟩
      rw [hseen, if_neg (hne m hm)]
      exact hkeeps m hm

theorem without_sources {sources : List Path}
    (hsites : ∀ source ∈ sources, Nonempty (SourceSite files root home source)) {top : Entry}
    (htop : top.Proper) (hkeeps : files.Keeps top)
    (hcells : ∀ source ∈ sources, top.seen (root.cell home source) ≠ some .empty) :
    (sources.foldl Entry.without top).Proper ∧ files.Keeps (sources.foldl Entry.without top) ∧
      ∀ m, (sources.foldl Entry.without top).seen m =
        if m ∈ sources.map (root.cell home) then none else top.seen m := by
  induction sources generalizing top with
  | nil => exact ⟨htop, hkeeps, fun m => (if_neg List.not_mem_nil).symm⟩
  | cons source sources ih =>
    obtain ⟨⟨site⟩, hsites⟩ := List.forall_mem_cons.1 hsites
    obtain ⟨hcell, hcells⟩ := List.forall_mem_cons.1 hcells
    obtain ⟨htop', hkeeps', hseen⟩ := hhome.without_source site htop hkeeps hcell
    obtain ⟨hproper, hkept, hrest⟩ := ih hsites htop' hkeeps' fun s hs => by
      rw [hseen]
      split
      case isTrue => exact fun h => by cases h
      case isFalse => exact hcells s hs
    refine ⟨hproper, hkept, fun m => ?_⟩
    rw [List.foldl_cons, hrest, hseen, List.map_cons]
    by_cases hm : m = root.cell home source <;>
      by_cases hmem : m ∈ sources.map (root.cell home) <;> simp [hm, hmem]

/-- When some of the sources are taken away, the others are found, and nothing is changed that
compiling them looks at. -/
theorem exists_without (gone : Path → Bool) :
    let sources := (Sources.below root rows).sources
    let files' := (sources.filter gone).foldl Entry.without files
    ∃ rows', files'.Home root home rows' ∧ files.Keeps files' ∧
      (∀ m, files'.seen m = some .empty → files.seen m = some .empty) ∧
      (∀ source ∈ sources, files'.seen (root.cell home (World.corePath source.parent source)) =
        files.seen (root.cell home (World.corePath source.parent source))) ∧
      Sources.rowsDepth (Sources.room root) root rows' ≤
        Sources.rowsDepth (Sources.room root) root rows ∧
      (Sources.below root rows').sources = sources.filter (!gone ·) := by
  intro sources files'
  have hsites : ∀ source ∈ sources.filter gone, Nonempty (SourceSite files root home source) :=
    fun source hsource => hhome.site (List.mem_filter.1 hsource).1
  obtain ⟨hproper, hkeeps, hseen⟩ := hhome.without_sources hsites hhome.proper (fun _ hm => hm)
    fun source hsource => by
      obtain ⟨site⟩ := hsites source hsource
      rw [site.cell_source, seen_of_get? site.file_eq]
      exact fun h => by cases h
  obtain ⟨rows', hhome'⟩ := hhome.keeps hproper hkeeps
  have hdirs : ∀ m, files'.seen m = some .empty → files.seen m = some .empty := by
    intro m hm
    rw [hseen] at hm
    split at hm
    case isTrue => cases hm
    case isFalse => exact hm
  have hrows := hhome.proper.of_get? hhome.get?_home
  have hrows' := hproper.of_get? hhome'.get?_home
  refine ⟨rows', hhome', hkeeps, hdirs, fun source hsource => ?_, ?_, ?_⟩
  · rw [hseen, if_neg]
    intro hmem
    obtain ⟨source', hsource', heq⟩ := List.mem_map.1 hmem
    obtain ⟨site⟩ := hhome.site hsource
    obtain ⟨site'⟩ := hsites source' hsource'
    exact site.cell_ne site' heq.symm
  · refine Sources.rowsDepth_le_of_dirs hrows hrows' (fun names entries hget => ?_) _ _
    rw [← hhome'.get?_below] at hget
    obtain ⟨entries', hget'⟩ := seen_eq_dir.1 (hdirs _ (seen_of_get? hget))
    exact ⟨entries', by rw [← hhome.get?_below, hget']⟩
  · refine Sources.sources_below_filter hrows hrows' fun names bytes hwanted => ?_
    rw [← hhome'.get?_below, ← hhome.get?_below, ← seen_eq_file, ← seen_eq_file, hseen,
      ← Path.cell_down root home names]
    constructor
    · intro h
      split at h
      case isTrue => cases h
      case isFalse hmem =>
        refine ⟨h, ?_⟩
        rw [Bool.not_eq_true', Bool.eq_false_iff]
        refine fun hgone => hmem ?_
        rw [seen_eq_file, Path.cell_down, hhome.get?_below] at h
        have hsource : root.down names ∈ sources :=
          (Sources.mem_below hrows).2 ⟨names, bytes, rfl, hwanted, h⟩
        exact List.mem_map.2 ⟨_, List.mem_filter.2 ⟨hsource, hgone⟩, rfl⟩
    · rintro ⟨h, hkept⟩
      rw [if_neg]
      · exact h
      · intro hmem
        obtain ⟨source, hsource, hcell⟩ := List.mem_map.1 hmem
        obtain ⟨site⟩ := hsites source hsource
        rw [seen_eq_file, Path.cell_down, hhome.get?_below] at h
        obtain ⟨site'⟩ := hhome.site ((Sources.mem_below hrows).2 ⟨names, bytes, rfl, hwanted, h⟩)
        rw [site.source_of_cell site' hcell] at hsource
        rw [(List.mem_filter.1 hsource).2] at hkept
        cases hkept

end Entry.Home

/-- Whether a file can be written depends on the directories only. -/
theorem Entry.write_of_dirs {top top' written : Entry} (htop : top.isDir = true)
    (hdirs : ∀ m, top.seen m = some .empty ↔ top'.seen m = some .empty) {p : Path}
    {bytes : ByteArray} (h : top.write p bytes = .ok written) (bytes' : ByteArray) :
    ∃ written', top'.write p bytes' = .ok written' := by
  obtain ⟨hzero, names, hopen, -⟩ := write_eq_ok h
  exact ⟨_, write_of_openAt hzero (place_openAt_of_dirs htop hdirs hopen) bytes'⟩

/-! ## Units that succeed -/

/-- Rows with different keys are told apart by them. -/
theorem eq_of_key {α β : Type} {rows : List (α × β)} (hkeys : (rows.map (·.1)).Nodup) {a : α}
    {b c : β} (hb : (a, b) ∈ rows) (hc : (a, c) ∈ rows) : b = c :=
  (Prod.ext_iff.1 (List.inj_on_of_nodup_map hkeys hb hc rfl)).2

theorem filterMap_sublist_map {α β : Type} {f : α → Option β} {g : α → β} {xs : List α}
    (h : ∀ x ∈ xs, ∀ b, f x = some b → b = g x) : (xs.filterMap f).Sublist (xs.map g) := by
  induction xs with
  | nil => exact .slnil
  | cons x xs ih =>
    obtain ⟨hx, hxs⟩ := List.forall_mem_cons.1 h
    rw [List.map_cons]
    cases hf : f x with
    | none =>
      rw [List.filterMap_cons_none hf]
      exact (ih hxs).cons _
    | some b =>
      rw [List.filterMap_cons_some hf, hx b hf]
      exact (ih hxs).cons_cons _

theorem Finding.Of.point_ne {path : Path} {r : Except Fault ByteArray} {point : FailurePoint}
    {error : String} (h : (Finding.failure point error).Of path r) : point ≠ .compile := by
  cases h <;> exact FailurePoint.noConfusion

theorem Entry.fileAt_of_read {top : Entry} {p : Path} {bytes : ByteArray}
    (h : top.read p = .ok bytes) : ∃ names, top.FileAt p names := by
  obtain ⟨hzero, h⟩ := onPlace_eq_ok h
  split at h
  case h_1 names old hplace => exact ⟨names, hzero, old, hplace⟩
  all_goals cases h

/-- An output that was read is gone. -/
theorem Entry.Shows.seen_of_report {files top top' : Entry} {findings : List (Path × Finding)}
    {cell : Path → List String} (hfiles : files.isDir = true) (hshows : top.Shows findings top')
    (hsits : ∀ row ∈ findings, files.Sits row.1 (cell row.1))
    (hcells : (findings.map fun row => cell row.1).Nodup) (htop : files.Keeps top) {p : Path}
    {r : Report} (hmem : (p, .report r) ∈ findings) : top'.seen (cell p) = none := by
  induction hshows with
  | nil => cases hmem
  | @cons top _ top' path finding findings hfirst hrest ih =>
    obtain ⟨hpath, hothers⟩ := List.forall_mem_cons.1 hsits
    rw [List.map_cons, List.nodup_cons] at hcells
    obtain ⟨hkeeps, -⟩ := (local_shows hfiles hpath).frame hfirst htop
    rcases List.mem_cons.1 hmem with heq | hmem
    · cases heq
      obtain ⟨hfinding, rfl⟩ := hfirst
      have hfile : top.FileAt p (cell p) := by
        generalize hread : top.read p = bytes at hfinding
        cases hfinding with
        | parsed =>
          obtain ⟨names, hnames⟩ := fileAt_of_read hread
          rwa [hpath.eq_of_fileAt htop hnames] at hnames
      have hframe := (Pass.frame cell hrest (fun row hrow => local_shows hfiles (hothers row hrow))
        hkeeps).2 (cell p)
      rw [hframe fun row hrow heq => hcells.1 (List.mem_map.2 ⟨row, hrow, heq.symm⟩)]
      exact seen_cleared_of_fileAt (htop.isDir hfiles) hfile
    · exact ih hothers hcells.2 hkeeps hmem

namespace Account

variable {plan : Plan} {tools : Toolbox} {files : Entry} (a : Account plan tools files)

/-- A source was compiled and its output was read. -/
def Succeeds (source : Path) : Prop :=
  ∃ path r, (source, .ok path) ∈ a.results ∧ (path, .report r) ∈ a.findings

theorem exists_source {path : Path} {finding : Finding} (h : (path, finding) ∈ a.findings) :
    ∃ source, (source, .ok path) ∈ a.results ∧ path = World.corePath source.parent source := by
  have hmem : path ∈ a.findings.map (·.1) := List.mem_map.2 ⟨_, h, rfl⟩
  rw [a.paths_eq] at hmem
  obtain ⟨⟨source, _ | path'⟩, hrow, hpath⟩ := List.mem_filterMap.1 hmem
  · cases hpath
  · cases hpath
    exact ⟨source, hrow, (a.compiles.output_eq hrow).1⟩

theorem exists_finding {source path : Path} (h : (source, .ok path) ∈ a.results) :
    ∃ finding, (path, finding) ∈ a.findings := by
  have hmem : path ∈ a.results.filterMap compiledPath? := List.mem_filterMap.2 ⟨_, h, rfl⟩
  rw [← a.paths_eq] at hmem
  obtain ⟨⟨path', finding⟩, hrow, rfl⟩ := List.mem_map.1 hmem
  exact ⟨finding, hrow⟩

theorem mem_sources {source : Path} {result : Except CompileError Path}
    (h : (source, result) ∈ a.results) : source ∈ (Sources.below plan.root a.rows).sources := by
  rw [← a.sources_eq]
  exact List.mem_map.2 ⟨_, h, rfl⟩

theorem of_mem_findings {path : Path} {finding : Finding} (h : (path, finding) ∈ a.findings) :
    ∃ bytes, finding.Of path bytes := by
  have hall : ∀ {top top' : Entry} {findings : List (Path × Finding)}, top.Shows findings top' →
      (path, finding) ∈ findings → ∃ bytes, finding.Of path bytes := by
    intro top top' findings hshows hmem
    induction hshows with
    | nil => cases hmem
    | cons hfirst hrest ih =>
      rcases List.mem_cons.1 hmem with heq | hmem
      · cases heq
        exact ⟨_, hfirst.1⟩
      · exact ih hmem
  exact hall a.shows h

section Distinct

variable {home : List String} (hhome : files.Home plan.root home a.rows)
  (hdistinct : ((Sources.below plan.root a.rows).sources.map fun source =>
    World.corePath source.parent source).Nodup)

section Home

include hhome

theorem nodup_sources : (a.results.map (·.1)).Nodup := by
  rw [a.sources_eq]
  exact Sources.nodup_of_aheadBelow
    (Sources.pairwise_below (hhome.proper.of_get? hhome.get?_home) plan.root)

theorem sits_core {source : Path} (hsource : source ∈ (Sources.below plan.root a.rows).sources) :
    files.Sits (World.corePath source.parent source)
      (plan.root.cell home (World.corePath source.parent source)) := by
  obtain ⟨site⟩ := hhome.site hsource
  exact site.sits hhome

theorem local_results (row : Path × Except CompileError Path) (hrow : row ∈ a.results) :
    Local files (fun top source result top' => plan.compiler.Compiles tools source top result top')
      row.1 (plan.root.cell home (World.corePath row.1.parent row.1)) :=
  plan.compiler.local_compiles hhome.isDir tools (a.sits_core hhome (a.mem_sources hrow))

theorem sits_path (row : Path × Finding) (hrow : row ∈ a.findings) :
    files.Sits row.1 (plan.root.cell home row.1) := by
  obtain ⟨source, hsource, hpath⟩ := a.exists_source hrow
  rw [hpath]
  exact a.sits_core hhome (a.mem_sources hsource)

end Home

include hdistinct

theorem nodup_paths : (a.findings.map (·.1)).Nodup := by
  rw [a.paths_eq]
  rw [← a.sources_eq, List.map_map] at hdistinct
  refine hdistinct.sublist (filterMap_sublist_map fun row hrow path hpath => ?_)
  obtain ⟨source, _ | path'⟩ := row
  · cases hpath
  · cases hpath
    exact (a.compiles.output_eq hrow).1

include hhome

/-- A source is among the failures unless it succeeds. -/
theorem leavesOut_eq_false {outcome : Outcome} (houtcome : outcome.failures = a.failures)
    {source : Path} (hsource : source ∈ (Sources.below plan.root a.rows).sources) :
    outcome.leavesOut source = false ↔ a.Succeeds source := by
  obtain ⟨site⟩ := hhome.site hsource
  rw [Outcome.leavesOut, houtcome, List.any_eq_false]
  constructor
  · intro hnone
    rw [← a.sources_eq] at hsource
    obtain ⟨⟨_, result⟩, hrow, rfl⟩ := List.mem_map.1 hsource
    cases result with
    | error e =>
      have hfailure : (⟨_, .compile, e.message⟩ : UnitFailure) ∈ a.failures :=
        List.mem_append_left _ (List.mem_filterMap.2 ⟨_, hrow, rfl⟩)
      exact absurd (beq_self_eq_true _) (hnone _ hfailure)
    | ok path =>
      obtain ⟨finding, hfinding⟩ := a.exists_finding hrow
      cases finding with
      | report r => exact ⟨path, r, hrow, hfinding⟩
      | failure point error =>
        have hfailure : (⟨path.text, point, error⟩ : UnitFailure) ∈ a.failures :=
          List.mem_append_right _ (List.mem_filterMap.2 ⟨_, hfinding, rfl⟩)
        refine absurd ?_ (hnone _ hfailure)
        obtain ⟨bytes, hof⟩ := a.of_mem_findings hfinding
        have hpoint := hof.point_ne
        rw [UnitFailure.concerns, (a.compiles.output_eq hrow).1]
        cases point with
        | compile => exact absurd rfl hpoint
        | parse | read => exact beq_self_eq_true _
  · rintro ⟨path, r, hrow, hreport⟩ f hf hconcerns
    rcases List.mem_append.1 hf with hf | hf
    · obtain ⟨⟨source', e | path'⟩, hrow', hf⟩ := List.mem_filterMap.1 hf
      · cases hf
        obtain ⟨site'⟩ := hhome.site (a.mem_sources hrow')
        obtain rfl := site'.source_of_text site (beq_iff_eq.1 hconcerns)
        cases eq_of_key (a.nodup_sources hhome) hrow hrow'
      · cases hf
    · obtain ⟨⟨path', finding⟩, hrow', hf⟩ := List.mem_filterMap.1 hf
      cases finding with
      | report => cases hf
      | failure point error =>
        cases hf
        obtain ⟨source', hsource', rfl⟩ := a.exists_source hrow'
        obtain ⟨bytes, hof⟩ := a.of_mem_findings hrow'
        have hpoint := hof.point_ne
        obtain ⟨site'⟩ := hhome.site (a.mem_sources hsource')
        have htext : (World.corePath source'.parent source').text =
            (World.corePath source.parent source).text := by
          rw [UnitFailure.concerns] at hconcerns
          cases point with
          | compile => exact absurd rfl hpoint
          | parse | read => exact beq_iff_eq.1 hconcerns
        rw [site'.core_of_text site htext, ← (a.compiles.output_eq hrow).1] at hrow'
        cases eq_of_key (a.nodup_paths hdistinct) hreport hrow'

/-! ## The run without the failing units -/

theorem nodup_cells :
    (a.results.map fun row => plan.root.cell home (World.corePath row.1.parent row.1)).Nodup := by
  have hcells : (((Sources.below plan.root a.rows).sources.map fun source =>
      World.corePath source.parent source).map (plan.root.cell home)).Nodup := by
    refine hdistinct.map_on ?_
    rintro _ hp _ hq heq
    obtain ⟨source, hsource, rfl⟩ := List.mem_map.1 hp
    obtain ⟨source', hsource', rfl⟩ := List.mem_map.1 hq
    obtain ⟨site⟩ := hhome.site hsource
    obtain ⟨site'⟩ := hhome.site hsource'
    exact site.core_of_cell site' heq
  rw [← a.sources_eq, List.map_map, List.map_map] at hcells
  exact hcells

theorem nodup_pathCells : (a.findings.map fun row => plan.root.cell home row.1).Nodup := by
  have hcells : ((a.findings.map (·.1)).map (plan.root.cell home)).Nodup := by
    refine (a.nodup_paths hdistinct).map_on ?_
    rintro _ hp _ hq heq
    obtain ⟨row, hrow, rfl⟩ := List.mem_map.1 hp
    obtain ⟨row', hrow', rfl⟩ := List.mem_map.1 hq
    obtain ⟨source, hsource, hpath⟩ := a.exists_source hrow
    obtain ⟨source', hsource', hpath'⟩ := a.exists_source hrow'
    obtain ⟨site⟩ := hhome.site (a.mem_sources hsource)
    obtain ⟨site'⟩ := hhome.site (a.mem_sources hsource')
    rw [hpath, hpath'] at heq ⊢
    exact site.core_of_cell site' heq
  rwa [List.map_map] at hcells

variable {keep : Path → Bool}
  (hkeep : ∀ source ∈ (Sources.below plan.root a.rows).sources,
    keep source = true ↔ a.Succeeds source)
include hkeep

/-- The units that succeed are compiled and read without the others as with them, and leave no new
directory. -/
theorem exists_reduced {files' : Entry} (hkeeps : files.Keeps files')
    (hdirs : ∀ m, files'.seen m = some .empty → files.seen m = some .empty)
    (hcells : ∀ source ∈ (Sources.below plan.root a.rows).sources,
      files'.seen (plan.root.cell home (World.corePath source.parent source)) =
        files.seen (plan.root.cell home (World.corePath source.parent source))) :
    ∃ compiled extracted,
      plan.compiler.CompilesAll tools files' (a.results.filter fun row => keep row.1) compiled ∧
      compiled.Shows (a.findings.filter fun row => row.2.report?.isSome) extracted ∧
      ∀ m, files'.seen m = some .empty ↔ extracted.seen m = some .empty := by
  let outputCell (source : Path) : List String :=
    plan.root.cell home (World.corePath source.parent source)
  have hresults := a.local_results hhome
  have hfindings : ∀ row ∈ a.findings, Local files (fun top path finding top' =>
      Finding.Of path (top.read path) finding ∧ top' = top.cleared path) row.1
      (plan.root.cell home row.1) :=
    fun row hrow => local_shows hhome.isDir (a.sits_path hhome row hrow)
  have hsublist : (a.findings.filter fun row => row.2.report?.isSome).Sublist a.findings :=
    List.filter_sublist
  obtain ⟨compiled, hcompiles, hcompiled⟩ := a.compiles.filter outputCell hresults
    (a.nodup_cells hhome hdistinct) (fun row => keep row.1) (fun _ hm => hm) hkeeps
    fun row hrow _ => hcells row.1 (a.mem_sources hrow)
  have hkeeps₁ := (a.compiles.frame outputCell hresults fun _ hm => hm).1
  obtain ⟨hkeeps₂, hframe₂⟩ := hcompiles.frame outputCell
    (fun row hrow => hresults row (List.mem_filter.1 hrow).1) hkeeps
  obtain ⟨extracted, hshows, -⟩ := a.shows.filter (plan.root.cell home) hfindings
    (a.nodup_pathCells hhome hdistinct)
    (fun row => row.2.report?.isSome) hkeeps₁ hkeeps₂ fun row hrow hreport => by
      obtain ⟨source, hsource, hpath⟩ := a.exists_source hrow
      obtain ⟨path, _ | r⟩ := row
      · cases hreport
      · have hsucceeds : a.Succeeds source := ⟨path, r, hsource, hrow⟩
        have hseen : compiled.seen (outputCell source) = a.compiled.seen (outputCell source) :=
          hcompiled _ hsource ((hkeep source (a.mem_sources hsource)).2 hsucceeds)
        simp only [outputCell, ← hpath] at hseen
        exact hseen
  obtain ⟨hkeeps₃, hframe₃⟩ := hshows.frame (plan.root.cell home)
    (fun row hrow => hfindings row (List.mem_filter.1 hrow).1) hkeeps₂
  refine ⟨compiled, extracted, hcompiles, hshows, fun m => ⟨fun hm => hkeeps₃ m (hdirs m hm), ?_⟩⟩
  intro hm
  -- The cells of the units that succeed are empty in the end, and nothing else has changed.
  have hreport : ∀ row ∈ a.findings.filter fun row => row.2.report?.isSome,
      m ≠ plan.root.cell home row.1 := by
    rintro ⟨path, _ | r⟩ hrow rfl
    · cases (List.mem_filter.1 hrow).2
    · rw [Shows.seen_of_report hhome.isDir hshows
        (fun row hrow => a.sits_path hhome row (List.mem_filter.1 hrow).1)
        ((a.nodup_pathCells hhome hdistinct).sublist (hsublist.map _)) hkeeps₂ hrow] at hm
      cases hm
  have hresult : ∀ row ∈ a.results.filter fun row => keep row.1,
      m ≠ plan.root.cell home (World.corePath row.1.parent row.1) := by
    intro row hrow
    obtain ⟨hrow, hkept⟩ := List.mem_filter.1 hrow
    obtain ⟨path, r, hsource, hfinding⟩ := (hkeep row.1 (a.mem_sources hrow)).1 hkept
    rw [← (a.compiles.output_eq hsource).1]
    exact hreport _ (List.mem_filter.2 ⟨hfinding, rfl⟩)
  rwa [hframe₃ m hreport, hframe₂ m hresult] at hm

/-- What is read is what was compiled. -/
theorem reduced_paths_eq :
    (a.findings.filter fun row => row.2.report?.isSome).map (·.1) =
      (a.results.filter fun row => keep row.1).filterMap compiledPath? := by
  classical
  let read (path : Path) : Bool := decide (∃ r, (path, Finding.report r) ∈ a.findings)
  have hfindings : a.findings.filter (fun row => row.2.report?.isSome) =
      a.findings.filter (read ∘ (·.1)) := by
    refine List.filter_congr fun row hrow => ?_
    obtain ⟨path, finding⟩ := row
    cases finding with
    | report r => exact (decide_eq_true ⟨r, hrow⟩).symm
    | failure point error =>
      refine (decide_eq_false ?_).symm
      rintro ⟨r, hr⟩
      cases eq_of_key (a.nodup_paths hdistinct) hrow hr
  have hresults : ∀ row ∈ a.results, (compiledPath? row).filter read =
      if keep row.1 then compiledPath? row else none := by
    rintro ⟨source, result⟩ hrow
    have hsucceeds := hkeep source (a.mem_sources hrow)
    cases result with
    | error e =>
      change none = _
      split <;> rfl
    | ok path =>
      change Option.filter read (some path) = if keep source then some path else none
      cases hread : read path with
      | true =>
        obtain ⟨r, hr⟩ := of_decide_eq_true hread
        rw [Option.filter_some_pos hread, if_pos (hsucceeds.2 ⟨path, r, hrow, hr⟩)]
      | false =>
        rw [Option.filter_some_neg (by simp [hread]), if_neg]
        rw [hsucceeds]
        rintro ⟨path', r, hrow', hr⟩
        cases eq_of_key (a.nodup_sources hhome) hrow hrow'
        exact of_decide_eq_false hread ⟨r, hr⟩
  calc (a.findings.filter fun row => row.2.report?.isSome).map (·.1)
      = (a.findings.map (·.1)).filter read := by rw [hfindings, List.filter_map]
    _ = a.results.filterMap fun row => (compiledPath? row).filter read := by
        rw [a.paths_eq, List.filter_filterMap]
    _ = a.results.filterMap fun row => if keep row.1 then compiledPath? row else none :=
        List.filterMap_congr hresults
    _ = _ := List.filterMap_filter.symm

end Distinct

/-- Without the sources that fail there is the account of the others, unless the graph cannot be
written. Then the system refuses that. -/
theorem without_failing (hproper : files.Proper)
    (hdistinct : ((Sources.below plan.root a.rows).sources.map fun source =>
      World.corePath source.parent source).Nodup)
    {outcome : Outcome} (houtcome : outcome.failures = a.failures) :
    let failing := (Sources.below plan.root a.rows).sources.filter outcome.leavesOut
    let files' := failing.foldl Entry.without files
    (Nonempty (Account plan tools files') ↔
      ∃ written, files'.write (.ofText plan.output) .empty = .ok written) ∧
    (Nonempty (Account plan tools files') ∨ ∃ e, ∀ s : Session, s.world.files = files' →
      s.world.tools = tools → ∃ s', (Run.run plan).run s = (.error (.os e), s')) ∧
    ∀ a' : Account plan tools files', a'.reports = a.reports ∧ a'.failures = [] := by
  intro failing files'
  obtain ⟨home, hhome⟩ := exists_home hproper a.root_eq
  obtain ⟨rows', hhome', hkeeps, hdirs, hcells, hdepth, hsources⟩ :=
    hhome.exists_without outcome.leavesOut
  have hshallow := Nat.le_trans hdepth a.shallow
  have hkeep : ∀ source ∈ (Sources.below plan.root a.rows).sources,
      (!outcome.leavesOut source) = true ↔ a.Succeeds source := by
    intro source hsource
    rw [Bool.not_eq_true']
    exact a.leavesOut_eq_false hhome hdistinct houtcome hsource
  obtain ⟨compiled, extracted, hcompiles, hshows, hsame⟩ :=
    a.exists_reduced hhome hdistinct hkeep hkeeps hdirs hcells
  have hpaths := a.reduced_paths_eq hhome hdistinct hkeep
  have hresults : (a.results.filter fun row => !outcome.leavesOut row.1).map (·.1) =
      (Sources.below plan.root rows').sources := by
    rw [hsources, ← a.sources_eq, List.filter_map]
    rfl
  have hreports : (a.findings.filter fun row => row.2.report?.isSome).filterMap (·.2.report?) =
      a.reports := by
    rw [List.filterMap_filter, reports]
    refine List.filterMap_congr fun row _ => ?_
    cases row.2.report? <;> rfl
  have hextracted : extracted.isDir = true := by
    obtain ⟨rows, hrows⟩ := seen_eq_dir.1 ((hsame []).1 (seen_nil hhome'.isDir))
    exact isDir_of_get? hrows
  -- There is one way only to compile and to read what is left.
  have hunique (a' : Account plan tools files') :
      a'.results = a.results.filter (fun row => !outcome.leavesOut row.1) ∧
        a'.findings = a.findings.filter (fun row => row.2.report?.isSome) ∧
          a'.extracted = extracted := by
    have hrows := a'.rows_eq hhome'.at?_root
    obtain ⟨hres, hcomp⟩ := a'.compiles.unique hcompiles (by rw [a'.sources_eq, hrows, hresults])
    obtain ⟨hfind, hext⟩ := Shows.unique (hcomp ▸ a'.shows) hshows (by
      rw [a'.paths_eq, hpaths, hres])
    exact ⟨hres, hfind, hext⟩
  have hreduced {written : Entry} (hwrite : extracted.write (.ofText plan.output)
      (plan.drawing.render ((a.findings.filter fun row => row.2.report?.isSome).filterMap
        (·.2.report?))).toUTF8 = .ok written) : Account plan tools files' :=
    ⟨rows', _, _, compiled, extracted, written, hhome'.at?_root, hshallow, hresults, hcompiles,
      hpaths, hshows, hwrite, a.image_drawn⟩
  refine ⟨⟨?_, ?_⟩, ?_, fun a' => ?_⟩
  · rintro ⟨a'⟩
    have hwrite := a'.write_eq
    rw [(hunique a').2.2] at hwrite
    exact write_of_dirs hextracted (fun m => (hsame m).symm) hwrite _
  · rintro ⟨written, hwrite⟩
    obtain ⟨written', hwrite'⟩ := write_of_dirs hhome'.isDir hsame hwrite _
    exact ⟨hreduced hwrite'⟩
  · cases hwrite : extracted.write (.ofText plan.output) (plan.drawing.render
        ((a.findings.filter fun row => row.2.report?.isSome).filterMap (·.2.report?))).toUTF8 with
    | ok written => exact .inl ⟨hreduced hwrite⟩
    | error fault =>
      have hzero := (write_eq_ok a.write_eq).1
      rcases onPlace_eq_error hwrite with h | ⟨e, rfl⟩
      · cases hzero.symm.trans h
      · refine .inr ⟨e, fun s hfiles htools => ?_⟩
        exact Run.run_error_of_write (by rw [hfiles]; exact hhome'.at?_root) hshallow hresults
          (by rw [hfiles, htools]; exact hcompiles) hpaths hshows hwrite
  · obtain ⟨hres, hfind, -⟩ := hunique a'
    refine ⟨?_, ?_⟩
    · rw [← hreports, ← hfind]
      rfl
    · rw [failures, hres, hfind, List.append_eq_nil_iff, List.filterMap_eq_nil_iff,
        List.filterMap_eq_nil_iff]
      constructor
      · rintro ⟨source, result⟩ hrow
        obtain ⟨hrow, hkept⟩ := List.mem_filter.1 hrow
        obtain ⟨path, r, hrow', -⟩ := (hkeep source (a.mem_sources hrow)).1 hkept
        cases eq_of_key (a.nodup_sources hhome) hrow hrow'
        rfl
      · rintro ⟨path, finding⟩ hrow
        cases finding with
        | failure => cases (List.mem_filter.1 hrow).2
        | report => rfl

end Account

/-- When a run has returned, a run in the world without the sources that failed returns unless the
graph cannot be written there, and it gives the same reports and the same graph, with no failure. A
run that does not return ends with what the system refuses. The directory of the sources is given by
a relative path. -/
theorem failing_units_contribute_nothing {plan : Plan} {w : World} {tracker : Tracker}
    {events : List Event} {rows : List (String × Entry)} {outcome : Outcome} {s : Session}
    (hproper : w.files.Proper) (hroot : w.files.at? plan.root = .ok (some (.dir rows)))
    (hdistinct : ((Sources.below plan.root rows).sources.map fun source =>
      World.corePath source.parent source).Nodup)
    (hrun : (Run.run plan).run ⟨w, tracker, events, []⟩ = (.ok outcome, s))
    (tracker' : Tracker) (events' : List Event) :
    let failing := (Sources.below plan.root rows).sources.filter outcome.leavesOut
    let files := failing.foldl Entry.without w.files
    ((∃ outcome' s', (Run.run plan).run ⟨{ w with files }, tracker', events', []⟩ =
        (.ok outcome', s')) ↔
      ∃ written, files.write (.ofText plan.output) .empty = .ok written) ∧
    ((¬ ∃ outcome' s', (Run.run plan).run ⟨{ w with files }, tracker', events', []⟩ =
        (.ok outcome', s')) →
      ∃ e s', (Run.run plan).run ⟨{ w with files }, tracker', events', []⟩ =
        (.error (.os e), s')) ∧
    ∀ outcome' s', (Run.run plan).run ⟨{ w with files }, tracker', events', []⟩ =
        (.ok outcome', s') →
      outcome'.reports = outcome.reports ∧ outcome'.failures = [] ∧
        s'.world.files.read (.ofText plan.output) = s.world.files.read (.ofText plan.output) := by
  intro failing files
  obtain ⟨a, hreports, hfailures, hwritten⟩ := Run.exists_account_of_run hrun
  obtain rfl := a.rows_eq hroot
  obtain ⟨hiff, herror, hsame⟩ := a.without_failing hproper hdistinct hfailures
  have hreturns : (∃ outcome' s', (Run.run plan).run ⟨{ w with files }, tracker', events', []⟩ =
      (.ok outcome', s')) ↔ Nonempty (Account plan w.tools files) := by
    constructor
    · rintro ⟨outcome', s', hrun'⟩
      obtain ⟨a', -⟩ := Run.exists_account_of_run hrun'
      exact ⟨a'⟩
    · rintro ⟨a'⟩
      obtain ⟨outcome', s', hrun', -⟩ :=
        Account.exists_run (w := { w with files }) a' tracker' events'
      exact ⟨outcome', s', hrun'⟩
  refine ⟨hreturns.trans hiff, fun hstops => ?_, fun outcome' s' hrun' => ?_⟩
  · rw [hreturns] at hstops
    obtain ⟨e, hrun'⟩ := herror.resolve_left hstops
    exact ⟨e, hrun' _ rfl rfl⟩
  · obtain ⟨a', hreports', hfailures', hwritten'⟩ := Run.exists_account_of_run hrun'
    obtain ⟨heq, hnil⟩ := hsame a'
    refine ⟨by rw [hreports', hreports, heq], by rw [hfailures', hnil], ?_⟩
    rw [hwritten, hwritten', a.read_written, a'.read_written, heq]

/-- One source is not compiled, the output of another is a directory, and the third has a unit. -/
theorem failing_units_contribute_nothing_two :
    let rows : List (String × Entry) :=
      [("a.erl", .file .empty), ("b.erl", .file .empty), ("c.erl", .file .empty)]
    let core : ByteArray := ⟨#[40, 32, 109, 111, 100, 117, 108, 101, 32, 39, 99, 39, 32, 91, 32, 93, 32,
      97, 116, 116, 114, 105, 98, 117, 116, 101, 115, 32, 91, 32, 93, 32, 101, 110, 100, 32, 45, 124,
      32, 91, 32, 93, 32, 41]⟩
    let compiling (source : String) : Behaviour :=
      if source = "a.erl" then ⟨.exited 1 none (some "no"), none⟩
      else ⟨.exited 0 none none, if source = "b.erl" then some .dir else some (.file core)⟩
    let plan : Plan := ⟨.standard, .standard, .standard, 4, ⟨"", []⟩, "g.dot", none⟩
    let w : World := ⟨.dir rows, ⟨compiling, .missing, []⟩, [], []⟩
    let files : Entry := .dir [("c.erl", .file .empty)]
    w.files.Proper ∧ ∃ outcome s outcome' s',
      (Run.run plan).run ⟨w, .ofClock (.ofList []), [], []⟩ = (.ok outcome, s) ∧
      (Run.run plan).run ⟨{ w with files }, .ofClock (.ofList []), [], []⟩ = (.ok outcome', s') ∧
      outcome.reports = [⟨"c", []⟩] ∧ outcome.failures.length = 2 ∧
      outcome'.reports = outcome.reports ∧ outcome'.failures = [] := by
  intro rows core compiling plan w files
  let unit : Module := ⟨"c", [], [], []⟩
  have hproper : w.files.Proper :=
    Entry.proper_of_files ["a.erl", "b.erl", "c.erl"] (by decide) (by decide)
  have hsources : (Sources.below plan.root rows).sources =
      [⟨"", ["a.erl"]⟩, ⟨"", ["b.erl"]⟩, ⟨"", ["c.erl"]⟩] := by
    have hsorted : ["a.erl", "b.erl", "c.erl"].Pairwise (· ≤ ·) := by decide
    exact Sources.sources_below_files hsorted (by decide) .empty
  have hunit : Module.ofText (some (Path.text ⟨"", ["c.core"]⟩)) (Text.ofFile core) =
      .ok ⟨unit, []⟩ := by
    have htext : Text.ofFile core = Module.print ⟨unit, []⟩ := by decide
    rw [htext]
    exact Module.readText_of_wellFormed (by simp [unit, Module.AnnWellFormed,
      Module.WellFormed, Definition.AllWellFormed, Const.AllWellFormed]) (by decide) _
  have hreport : unit.report stackLimit = .ok ⟨"c", []⟩ :=
    Module.report_of_describable (m := unit) fun t ht => by cases ht
  let compiled : Entry := .dir (rows ++ [("b.core", .empty), ("c.core", .file core)])
  let extracted : Entry := .dir (rows ++ [("b.core", .empty)])
  let a : Account plan w.tools w.files :=
    { rows := rows
      results := [(⟨"", ["a.erl"]⟩, .error ⟨"a.erl", some 1, "no"⟩),
        (⟨"", ["b.erl"]⟩, .ok ⟨"", ["b.core"]⟩), (⟨"", ["c.erl"]⟩, .ok ⟨"", ["c.core"]⟩)]
      findings := [(⟨"", ["b.core"]⟩, .failure .read "[Errno 21] Is a directory: 'b.core'"),
        (⟨"", ["c.core"]⟩, .report ⟨"c", []⟩)]
      compiled
      extracted
      written := .dir (rows ++ [("b.core", .empty),
        ("g.dot", .file (Drawing.standard.render [⟨"c", []⟩]).toUTF8)])
      root_eq := rfl
      shallow := by decide
      sources_eq := hsources.symm
      compiles := .cons ⟨_, .bare rfl, .failed (by decide)⟩
        (.cons ⟨_, .left rfl rfl rfl, .produced rfl⟩
          (.cons ⟨_, .left rfl rfl rfl, .produced rfl⟩ (.nil _)))
      paths_eq := rfl
      shows := .cons ⟨.unread (.isDirectory "b.core"), rfl⟩ (.cons ⟨.parsed hunit hreport, rfl⟩
        (.nil _))
      write_eq := by
        simp only [plan, extracted, rows]
        rfl
      image_drawn := by simp [plan] }
  obtain ⟨outcome, s, hrun, hreports, hfailures⟩ := a.exists_run (.ofClock (.ofList [])) []
  have hfiles : ((Sources.below plan.root rows).sources.filter outcome.leavesOut).foldl
      Entry.without w.files = files := by
    have hleaves : outcome.leavesOut = fun source => a.failures.any (·.concerns source) := by
      funext source
      rw [Outcome.leavesOut, hfailures]
    rw [hleaves, hsources]
    rfl
  have hsame := failing_units_contribute_nothing hproper rfl (by rw [hsources]; decide) hrun
    (.ofClock (.ofList [])) []
  dsimp only at hsame
  rw [hfiles] at hsame
  have hwrite : files.write (.ofText plan.output) .empty =
      .ok (.dir [("c.erl", .file .empty), ("g.dot", .file .empty)]) := by
    simp only [plan, files]
    rfl
  obtain ⟨outcome', s', hrun'⟩ := hsame.1.2 ⟨_, hwrite⟩
  obtain ⟨hreports', hfailures', -⟩ := hsame.2.2 outcome' s' hrun'
  exact ⟨hproper, outcome, s, outcome', s', hrun, hrun', hreports, by rw [hfailures]; rfl, hreports',
    hfailures'⟩

/-- The output of the compiler for the only source is a directory, and the graph is written into it.
Without that source there is no such directory, and the run stops. -/
theorem run_stops_without_failing_unit :
    let rows : List (String × Entry) := [("a.erl", .file .empty)]
    let plan : Plan := ⟨.standard, .standard, .standard, 1, ⟨"", []⟩, "a.core/g.dot", none⟩
    let w : World := ⟨.dir rows, ⟨fun _ => ⟨.exited 0 none none, some .dir⟩, .missing, []⟩, [], []⟩
    w.files.Proper ∧ (Sources.below plan.root rows).sources = [⟨"", ["a.erl"]⟩] ∧
    (∃ outcome s, (Run.run plan).run ⟨w, .ofClock (.ofList []), [], []⟩ = (.ok outcome, s) ∧
      outcome.leavesOut ⟨"", ["a.erl"]⟩ = true) ∧
    ¬ ∃ outcome s, (Run.run plan).run
      ⟨{ w with files := w.files.without ⟨"", ["a.erl"]⟩ }, .ofClock (.ofList []), [], []⟩ =
        (.ok outcome, s) := by
  intro rows plan w
  have hproper : w.files.Proper := Entry.proper_of_files ["a.erl"] (by decide) (by decide)
  have hsources : (Sources.below plan.root rows).sources = [⟨"", ["a.erl"]⟩] := by
    rw [Sources.below_file]
    rfl
  let compiled : Entry := .dir [("a.erl", .file .empty), ("a.core", .empty)]
  let a : Account plan w.tools w.files :=
    { rows := rows
      results := [(⟨"", ["a.erl"]⟩, .ok ⟨"", ["a.core"]⟩)]
      findings := [(⟨"", ["a.core"]⟩, .failure .read "[Errno 21] Is a directory: 'a.core'")]
      compiled
      extracted := compiled
      written := .dir [("a.erl", .file .empty),
        ("a.core", .dir [("g.dot", .file (Drawing.standard.render []).toUTF8)])]
      root_eq := rfl
      shallow := by decide
      sources_eq := hsources.symm
      compiles := .cons ⟨_, .left rfl rfl rfl, .produced rfl⟩ (.nil _)
      paths_eq := rfl
      shows := .cons ⟨.unread (.isDirectory "a.core"), rfl⟩ (.nil _)
      write_eq := by
        simp only [plan, compiled]
        rfl
      image_drawn := by simp [plan] }
  obtain ⟨outcome, s, hrun, -, hfailures⟩ := Account.exists_run (w := w) a
    (.ofClock (.ofList [])) []
  refine ⟨hproper, hsources, ⟨outcome, s, hrun, ?_⟩, ?_⟩
  · rw [Outcome.leavesOut, hfailures]
    rfl
  · rintro ⟨outcome', s', hrun'⟩
    obtain ⟨a', -⟩ := Run.exists_account_of_run hrun'
    have hrows : a'.rows = [] := a'.rows_eq rfl
    have hnone : (Sources.below plan.root a'.rows).sources = [] := by
      rw [hrows]
      exact Sources.sources_below_files .nil (by simp) .empty
    have hwrite : (Entry.dir []).write (.ofText plan.output) (plan.drawing.render []).toUTF8 =
        .error (.os (.noSuchFile "a.core/g.dot")) := by
      simp only [plan]
      rfl
    exact a'.not_stops (.unwritable (by rw [hnone]; rfl) (.nil _) rfl (.nil _) hwrite)

end CallGraph
