import CallGraph.Proofs.Run.Containment
import CallGraph.Proofs.Views

/-!
What is left of the files when the outputs of the compiler have been read. Each output that is a file
is gone, whatever was found in it, and all other files and all directories are as they were.
-/

namespace CallGraph

namespace Entry

/-- A path leads to a file, which is reached by the names. -/
def FileAt (top : Entry) (p : Path) (names : List String) : Prop :=
  p.hasZero = false ∧ ∃ bytes, top.place p = .found names (.file bytes)

theorem get?_of_missing {top : Entry} {here parts names : List String}
    (h : follow top here parts = .missing names) : top.get? names = none := by
  fun_induction follow top here parts with
  | case3 here parts ih => exact ih h
  | case5 here p parts hp there hsize entries hthere ih => exact ih h
  | case8 here p hp there hsize hthere =>
    injection h with hnames
    rw [← hnames]
    exact hthere
  | case1 | case2 | case4 | case6 | case7 | case9 => cases h

theorem FileAt.unique {top : Entry} {p : Path} {names names' : List String}
    (h : top.FileAt p names) (h' : top.FileAt p names') : names = names' := by
  obtain ⟨-, bytes, hplace⟩ := h
  obtain ⟨-, bytes', hplace'⟩ := h'
  rw [hplace] at hplace'
  cases hplace'
  rfl

/-- A path leads to a file if its place is open and a file is seen there. -/
theorem fileAt_iff {top : Entry} {p : Path} {names : List String} :
    top.FileAt p names ↔ p.hasZero = false ∧ (top.place p).OpenAt names ∧
      ∃ bytes, top.seen names = some (.file bytes) := by
  refine and_congr_right fun _ => ⟨?_, ?_⟩
  · rintro ⟨bytes, hplace⟩
    have hopen : (top.place p).OpenAt names := by
      rw [hplace]
      rfl
    have hfollow := hopen.place_eq top
    rw [hplace] at hfollow
    exact ⟨hopen, bytes, seen_eq_file.2 (get?_of_follow hfollow.symm)⟩
  · rintro ⟨hopen, bytes, hseen⟩
    have hfollow := hopen.place_eq top
    cases hplace : top.place p with
    | found ns e =>
      rw [hplace] at hopen
      cases e with
      | file old =>
        have hnames : ns = names := hopen
        exact ⟨old, by rw [hnames]⟩
      | dir => cases hopen
    | missing ns =>
      rw [hplace] at hopen hfollow
      have hnames : ns = names := hopen
      rw [seen_eq_file, ← hnames, get?_of_missing hfollow.symm] at hseen
      cases hseen
    | lost | blocked | overlong =>
      rw [hplace] at hopen
      cases hopen

/-- What is taken away is the file to which the path leads. -/
theorem cleared_cases (top : Entry) (p : Path) :
    (∃ names, top.FileAt p names ∧ top.cleared p = top.erase names) ∨
      (∀ names, ¬ top.FileAt p names) ∧ top.cleared p = top := by
  by_cases hfile : ∃ names, top.FileAt p names
  · obtain ⟨names, hzero, bytes, hplace⟩ := hfile
    refine .inl ⟨names, ⟨hzero, bytes, hplace⟩, ?_⟩
    rw [cleared, remove, onPlace, hzero, hplace]
    rfl
  · rw [not_exists] at hfile
    refine .inr ⟨hfile, ?_⟩
    rw [cleared]
    split
    case h_2 => rfl
    case h_1 files hremove =>
      obtain ⟨hzero, hremove⟩ := onPlace_eq_ok hremove
      split at hremove
      case h_1 names bytes hplace => exact absurd ⟨hzero, bytes, hplace⟩ (hfile names)
      all_goals cases hremove

section Directory

variable {top : Entry} (htop : top.isDir = true)
include htop

theorem seen_erase_of_fileAt {p : Path} {names : List String} (h : top.FileAt p names)
    (ms : List String) :
    (top.erase names).seen ms = if ms = names then none else top.seen ms := by
  obtain ⟨-, -, bytes, hseen⟩ := fileAt_iff.1 h
  refine seen_erase ?_ (seen_eq_file.1 hseen) ms
  rintro rfl
  rw [seen_nil htop] at hseen
  cases hseen

theorem seen_cleared_of_fileAt {p : Path} {names : List String} (h : top.FileAt p names) :
    (top.cleared p).seen names = none := by
  obtain ⟨ns, hns, heq⟩ | ⟨hnone, -⟩ := cleared_cases top p
  · rw [heq, seen_erase_of_fileAt htop hns, if_pos (h.unique hns)]
  · exact absurd h (hnone names)

theorem seen_cleared_of_not_fileAt {p : Path} {names : List String} (h : ¬ top.FileAt p names) :
    (top.cleared p).seen names = top.seen names := by
  obtain ⟨ns, hns, heq⟩ | ⟨-, heq⟩ := cleared_cases top p
  · rw [heq, seen_erase_of_fileAt htop hns, if_neg]
    rintro rfl
    exact h hns
  · rw [heq]

theorem seen_cleared_eq_dir (p : Path) (names : List String) :
    top.seen names = some .empty ↔ (top.cleared p).seen names = some .empty := by
  by_cases hfile : top.FileAt p names
  · obtain ⟨-, -, bytes, hseen⟩ := fileAt_iff.1 hfile
    rw [hseen, seen_cleared_of_fileAt htop hfile]
    constructor
    · intro h
      cases h
    · intro h
      cases h
  · rw [seen_cleared_of_not_fileAt htop hfile]

/-- When one file is taken away, all other paths lead to files as before. -/
theorem fileAt_cleared {p q : Path} {names : List String} :
    (top.cleared p).FileAt q names ↔ top.FileAt q names ∧ ¬ top.FileAt p names := by
  have hopen : (top.place q).OpenAt names ↔ ((top.cleared p).place q).OpenAt names :=
    ⟨place_openAt_of_dirs htop (seen_cleared_eq_dir htop p),
      place_openAt_of_dirs (isDir_cleared htop p) fun m => (seen_cleared_eq_dir htop p m).symm⟩
  rw [fileAt_iff, fileAt_iff (p := q), ← hopen]
  by_cases hfile : top.FileAt p names
  · rw [seen_cleared_of_fileAt htop hfile]
    simp [hfile]
  · rw [seen_cleared_of_not_fileAt htop hfile]
    simp [hfile]

end Directory

/-- Of the files nothing is gone but those at the paths, and these are gone. -/
structure Cleaned (files : Entry) (paths : List Path) (files' : Entry) : Prop where
  gone : ∀ p ∈ paths, ∀ bytes, files'.at? p ≠ .ok (some (.file bytes))
  kept : ∀ names, (∀ p ∈ paths, ¬ files.FileAt p names) → files'.seen names = files.seen names

theorem fileAt_of_at? {top : Entry} {p : Path} {bytes : ByteArray}
    (h : top.at? p = .ok (some (.file bytes))) : ∃ names, top.FileAt p names := by
  have hzero := hasZero_of_at? h
  rw [at?, hzero] at h
  cases hplace : top.place p with
  | found names e =>
    rw [hplace] at h
    cases h
    exact ⟨names, hzero, bytes, hplace⟩
  | missing | lost | blocked | overlong =>
    rw [hplace] at h
    cases h

/-- Reading an output takes it away, and no path leads to a file that did not do so before. -/
theorem Shows.cleaned {files files' : Entry} {findings : List (Path × Finding)}
    (h : files.Shows findings files') (hdir : files.isDir = true) :
    files.Cleaned (findings.map (·.1)) files' := by
  -- The induction needs to know to which files paths still lead, to tell a path that comes again.
  have hstrong : (∀ p names, files'.FileAt p names →
        files.FileAt p names ∧ ∀ q ∈ findings.map (·.1), ¬ files.FileAt q names) ∧
      ∀ names, (∀ p ∈ findings.map (·.1), ¬ files.FileAt p names) →
        files'.seen names = files.seen names := by
    induction h with
    | nil => exact ⟨fun p names hp => ⟨hp, by simp⟩, fun _ _ => rfl⟩
    | @cons files _ files' path finding findings hfirst hrest ih =>
      obtain ⟨-, rfl⟩ := hfirst
      obtain ⟨hpaths, hseen⟩ := ih (isDir_cleared hdir path)
      refine ⟨fun p names hp => ?_, fun names hnames => ?_⟩
      · obtain ⟨hp, hothers⟩ := hpaths p names hp
        obtain ⟨hp, hpath⟩ := (fileAt_cleared hdir).1 hp
        refine ⟨hp, fun q hq => ?_⟩
        rcases List.mem_cons.1 hq with rfl | hq
        · exact hpath
        · exact fun hfile => hothers q hq ((fileAt_cleared hdir).2 ⟨hfile, hpath⟩)
      · obtain ⟨hpath, hothers⟩ := List.forall_mem_cons.1 hnames
        rw [hseen names fun q hq hfile => hothers q hq ((fileAt_cleared hdir).1 hfile).1]
        exact seen_cleared_of_not_fileAt hdir hpath
  refine ⟨fun p hp bytes hfile => ?_, hstrong.2⟩
  obtain ⟨names, hnames⟩ := fileAt_of_at? hfile
  obtain ⟨hbefore, hothers⟩ := hstrong.1 p names hnames
  exact hothers p hp hbefore

end Entry

namespace Run

theorem world_discard (path : Path) (s : Session) :
    ((discard path).run s).2.world = { s.world with files := s.world.files.cleared path } := by
  have hget : (get : RunM Session).run s = (.ok s, s) := rfl
  rw [discard, run_bind, hget, Entry.cleared]
  dsimp only
  cases s.world.files.remove path with
  | ok files => rfl
  | error e =>
    cases e with
    | os e => cases e <;> rfl
    | conversion | tooDeep | noRule => rfl

/-- What comes after a step and leaves the world alone. -/
theorem world_bind {α β : Type} {x : RunM α} {f : α → RunM β}
    (hf : ∀ a s, ((f a).run s).2.world = s.world) (s : Session) :
    ((x >>= f).run s).2.world = (x.run s).2.world := by
  rw [run_bind]
  rcases x.run s with ⟨e | a, s'⟩
  · rfl
  · exact hf a s'

/-- Whatever comes of reading a file, the world changes by its removal only. -/
theorem world_extractFile (path : Path) (s : Session) :
    ((extractFile path).run s).2.world = { s.world with files := s.world.files.cleared path } := by
  have hget : (get : RunM Session).run s = (.ok s, s) := rfl
  rw [extractFile, run_bind, hget]
  refine (world_bind (fun _ s' => ?_) s).trans (world_discard path s)
  cases s.world.files.read path with
  | error fault => cases fault <;> rfl
  | ok bytes =>
    dsimp only
    cases Module.ofText (some path.text) (Text.ofFile bytes) with
    | error e => cases e <;> rfl
    | ok m =>
      dsimp only
      cases m.node.report stackLimit <;> rfl

end Run

theorem Entry.cleaned_cleared {files : Entry} (hdir : files.isDir = true) (path : Path) :
    files.Cleaned [path] (files.cleared path) where
  gone := by
    intro p hp bytes hfile
    obtain rfl := List.mem_singleton.1 hp
    obtain ⟨names, hnames⟩ := fileAt_of_at? hfile
    obtain ⟨hbefore, hnot⟩ := (fileAt_cleared hdir).1 hnames
    exact hnot hbefore
  kept := fun names hnames => seen_cleared_of_not_fileAt hdir (hnames path List.mem_cons_self)

/-- When all outputs are read, none of their paths leads to a file, nothing else is changed, and each
path has given a report or a failure. One that is read on its own is gone too, whatever comes of
it. -/
theorem extraction_cleans_up {s : Session} (hdir : s.world.files.isDir = true) :
    (∀ paths reports s', (Run.extractAll paths).run s = (.ok reports, s') →
      s.world.files.Cleaned paths s'.world.files ∧
      ∃ added, s'.failures = s.failures ++ added ∧
        reports.length + added.length = paths.length) ∧
    ∀ path result s', (Run.extractFile path).run s = (result, s') →
      s.world.files.Cleaned [path] s'.world.files := by
  constructor
  · intro paths reports s' hrun
    obtain ⟨findings, files, rfl, hshows, rfl, hstanding⟩ := (Run.has_extractAll paths).sound hrun
    have hfiles : s'.world.files = files := congrArg (·.scene.files) hstanding
    rw [hfiles]
    refine ⟨hshows.cleaned hdir, _, congrArg (·.failures) hstanding, ?_⟩
    rw [List.length_map]
    exact length_filterMap_add (by rintro ⟨path, _ | r⟩ <;> rfl) findings
  · intro path result s' hrun
    have hworld := Run.world_extractFile path s
    rw [hrun] at hworld
    rw [hworld]
    exact Entry.cleaned_cleared hdir path

/-- A directory is read twice with a missing file in between, and then a file. -/
theorem extraction_cleans_up_around_directory :
    let files : Entry := .dir [("a.core", .file .empty), ("d.core", .empty)]
    let s : Session := ⟨⟨files, ⟨fun _ => ⟨.missing, none⟩, .missing, []⟩, [], []⟩,
      .ofClock (.ofList []), [], []⟩
    let paths : List Path := [⟨"", ["d.core"]⟩, ⟨"", ["b.core"]⟩, ⟨"", ["d.core"]⟩]
    s.world.files.isDir = true ∧
    (∃ s', (Run.extractAll paths).run s = (.ok [], s') ∧
      s'.world.files.seen ["a.core"] = some (.file .empty) ∧ s'.failures.length = 3) ∧
    ∃ result s', (Run.extractFile ⟨"", ["a.core"]⟩).run s = (result, s') ∧
      s'.world.files.at? ⟨"", ["a.core"]⟩ ≠ .ok (some (.file .empty)) := by
  intro files s paths
  have hdir : s.world.files.isDir = true := rfl
  have hplace : files.place ⟨"", ["d.core"]⟩ = .found ["d.core"] .empty := rfl
  have hmissing : files.place ⟨"", ["b.core"]⟩ = .missing ["b.core"] := rfl
  let findings : List (Path × Finding) :=
    [(⟨"", ["d.core"]⟩, .failure .read (OsError.isDirectory "d.core").message),
      (⟨"", ["b.core"]⟩, .failure .read (OsError.noSuchFile "b.core").message),
      (⟨"", ["d.core"]⟩, .failure .read (OsError.isDirectory "d.core").message)]
  have hshows : files.Shows findings files :=
    .cons ⟨.unread _, rfl⟩ (.cons ⟨.unread _, rfl⟩ (.cons ⟨.unread _, rfl⟩ (.nil _)))
  obtain ⟨s', hrun, hstanding⟩ := (Run.has_extractAll paths).complete (s := s)
    ⟨findings, files, rfl, hshows, rfl, rfl⟩
  obtain ⟨hcleaned, added, hadded, hlength⟩ := (extraction_cleans_up hdir).1 _ _ _ hrun
  refine ⟨hdir, ⟨s', hrun, ?_, ?_⟩, _, _, rfl, ?_⟩
  · rw [hcleaned.kept]
    · rfl
    · rintro p hp ⟨-, bytes, hfile⟩
      simp only [paths, List.mem_cons, List.not_mem_nil, or_false] at hp
      rcases hp with rfl | rfl | rfl
      · injection hplace.symm.trans hfile with _ hentry
        cases hentry
      · cases hmissing.symm.trans hfile
      · injection hplace.symm.trans hfile with _ hentry
        cases hentry
  · rw [hadded]
    exact (Nat.zero_add _).symm.trans hlength
  · exact ((extraction_cleans_up hdir).2 ⟨"", ["a.core"]⟩ _ _ rfl).gone _ List.mem_cons_self _

end CallGraph
