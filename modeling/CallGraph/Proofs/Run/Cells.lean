import CallGraph.Proofs.Run.Cleanup
import CallGraph.Proofs.Sources

/-!
Steps that look at one place of the files and change no other. What the compiler does for a source,
and what is read from its output, depends on where the path of the output leads and on what is seen
there. When each step of a loop has a place of its own, steps can be left out of the loop, and the
others do what they did.
-/

namespace CallGraph

namespace Entry

/-! ## Places seen from outside -/

section Shell

variable {place : Place} {names : List String}

theorem eq_of_shell_eq {place' : Place} (hplace : ∀ names e, place ≠ .found names e)
    (h : place'.shell = place.shell) : place' = place := by
  cases place with
  | found names e => exact absurd rfl (hplace names e)
  | missing | lost | blocked | overlong =>
    cases place' with
    | found => cases h
    | missing | lost | blocked | overlong => exact h

theorem shell_eq_found {e : Entry} (h : place.shell = (Place.found names e).shell) :
    ∃ e', place = .found names e' ∧ e'.shell = e.shell := by
  cases place with
  | found ns e' =>
    injection h with hnames he
    exact ⟨e', by rw [hnames], he⟩
  | missing | lost | blocked | overlong => cases h

end Shell

section Congr

variable {top top' : Entry} {p : Path} (hshell : (top'.place p).shell = (top.place p).shell)
include hshell

theorem openAt_congr {names : List String} :
    (top'.place p).OpenAt names ↔ (top.place p).OpenAt names := by
  rw [← openAt_shell, hshell, openAt_shell]

theorem fileAt_congr {names : List String} : top'.FileAt p names ↔ top.FileAt p names := by
  have hone {a b : Entry} (hab : (a.place p).shell = (b.place p).shell) (h : b.FileAt p names) :
      a.FileAt p names := by
    obtain ⟨hzero, bytes, hplace⟩ := h
    rw [hplace] at hab
    obtain ⟨e, he, hfile⟩ := shell_eq_found hab
    cases e with
    | file => exact ⟨hzero, _, he⟩
    | dir => cases hfile
  exact ⟨hone hshell.symm, hone hshell⟩

theorem at?_eq_some_congr {e : Entry} (h : top.at? p = .ok (some e)) :
    ∃ e', top'.at? p = .ok (some e') := by
  have hzero := hasZero_of_at? h
  rw [at?, hzero] at h ⊢
  cases hplace : top.place p with
  | found names e =>
    rw [hplace] at hshell
    obtain ⟨e', he', -⟩ := shell_eq_found hshell
    exact ⟨e', by rw [he']; rfl⟩
  | missing | lost | blocked | overlong =>
    rw [hplace] at h
    cases h

theorem at?_eq_none_congr (h : top.at? p = .ok none) : top'.at? p = .ok none := by
  rw [at?] at h ⊢
  cases hzero : p.hasZero with
  | true => rfl
  | false =>
    rw [hzero] at h
    cases hplace : top.place p with
    | missing | lost | blocked =>
      rw [hplace] at hshell
      cases hplace' : top'.place p with
      | missing | lost | blocked => rfl
      | found | overlong =>
        rw [hplace'] at hshell
        cases hshell
    | found | overlong =>
      rw [hplace] at h
      cases h

end Congr

/-! ## Leaving a product -/

theorem write_of_openAt {top : Entry} {p : Path} {names : List String} (hzero : p.hasZero = false)
    (hopen : (top.place p).OpenAt names) (bytes : ByteArray) :
    top.write p bytes = .ok (top.put names (.file bytes)) := by
  rw [write, onPlace, hzero]
  rcases hplace : top.place p with ⟨_, _ | _⟩ | _ | _ | _ | _
  case found.file | missing =>
    rw [hplace] at hopen
    cases hopen
    rfl
  all_goals
    rw [hplace] at hopen
    cases hopen

theorem makeDir_of_missing {top : Entry} {p : Path} {names : List String} (hzero : p.hasZero = false)
    (hplace : top.place p = .missing names) : top.makeDir p = .ok (top.put names .empty) := by
  rw [makeDir, onPlace, hzero, hplace]
  rfl

theorem makeDir_of_dir {top : Entry} {p : Path} {names : List String} {rows : List (String × Entry)}
    (hzero : p.hasZero = false) (hplace : top.place p = .found names (.dir rows)) :
    top.makeDir p = .ok top := by
  rw [makeDir, onPlace, hzero, hplace]
  rfl

theorem makeDir_eq_ok {top top' : Entry} {p : Path} (h : top.makeDir p = .ok top') :
    p.hasZero = false ∧
      ((∃ names, top.place p = .missing names ∧ top' = top.put names .empty) ∨
        (∃ names rows, top.place p = .found names (.dir rows)) ∧ top' = top) := by
  obtain ⟨hzero, h⟩ := onPlace_eq_ok h
  refine ⟨hzero, ?_⟩
  split at h
  case h_1 names hplace =>
    cases h
    exact .inl ⟨names, hplace, rfl⟩
  case h_2 names rows hplace =>
    cases h
    exact .inr ⟨⟨names, rows, hplace⟩, rfl⟩
  all_goals cases h

section Shells

variable {top top' : Entry} {p : Path} (hshell : (top'.place p).shell = (top.place p).shell)
include hshell

theorem place_eq_missing_congr {names : List String} (hplace : top.place p = .missing names) :
    top'.place p = .missing names := by
  rw [hplace] at hshell
  exact eq_of_shell_eq (fun _ _ => Place.noConfusion) hshell

theorem place_eq_dir_congr {names : List String} {rows : List (String × Entry)}
    (hplace : top.place p = .found names (.dir rows)) :
    ∃ rows', top'.place p = .found names (.dir rows') := by
  rw [hplace] at hshell
  obtain ⟨e, hplace', hdir⟩ := shell_eq_found hshell
  cases e with
  | file => cases hdir
  | dir rows' => exact ⟨rows', hplace'⟩

/-- A product has a place wherever the path leads to the same place. -/
theorem exists_leave_congr {product : Product} {files : Entry}
    (h : top.leave p product = .ok files) : ∃ files', top'.leave p product = .ok files' := by
  cases product with
  | file bytes =>
    obtain ⟨hzero, names, hopen, -⟩ := write_eq_ok h
    exact ⟨_, write_of_openAt hzero ((openAt_congr hshell).2 hopen) bytes⟩
  | dir =>
    obtain ⟨hzero, ⟨names, hplace, -⟩ | ⟨⟨names, rows, hplace⟩, -⟩⟩ := makeDir_eq_ok h
    · exact ⟨_, makeDir_of_missing hzero (place_eq_missing_congr hshell hplace)⟩
    · obtain ⟨rows', hplace'⟩ := place_eq_dir_congr hshell hplace
      exact ⟨_, makeDir_of_dir hzero hplace'⟩

theorem exists_leave_error_congr {product : Product} {fault : Fault}
    (h : top.leave p product = .error fault) : ∃ fault', top'.leave p product = .error fault' := by
  cases hleave : top'.leave p product with
  | error fault' => exact ⟨fault', rfl⟩
  | ok files =>
    obtain ⟨files', hok⟩ := exists_leave_congr hshell.symm hleave
    rw [h] at hok
    cases hok

end Shells

/-- What is seen after a change at one place, or after none. -/
def after (top : Entry) (change : Option (List String × Entry)) (m : List String) : Option Entry :=
  match change with
  | some (names, new) => if m = names then some new else top.seen m
  | none => top.seen m

end Entry

open Entry

/-- What a run of the compiler changes: what is seen at the place of its output, or nothing. It does
so wherever the path of its output leads to the same place. -/
structure Behaviour.Effect (b : Behaviour) (p : Path) (top : Entry) (ending : Ending)
    (change : Option (List String × Entry)) : Prop where
  openAt {names : List String} {new : Entry} :
    change = some (names, new) → (top.place p).OpenAt names
  runs {top' : Entry} : top'.isDir = true → (top'.place p).shell = (top.place p).shell →
    ∃ files, b.RunsTo p top' ending files ∧ ∀ m, files.seen m = top'.after change m

theorem Behaviour.effect_none {b : Behaviour} {p : Path} {top : Entry} {ending : Ending}
    (hruns : ∀ top' : Entry, (top'.place p).shell = (top.place p).shell →
      b.RunsTo p top' ending top') : b.Effect p top ending none where
  openAt h := by cases h
  runs {top'} _ hshell := ⟨top', hruns top' hshell, fun _ => rfl⟩

theorem Behaviour.RunsTo.exists_effect {b : Behaviour} {p : Path} {top files : Entry}
    {ending : Ending} (h : b.RunsTo p top ending files) :
    ∃ change, b.Effect p top ending change := by
  cases h with
  | bare hproduct => exact ⟨none, effect_none fun _ _ => .bare hproduct⟩
  | cut hown => exact ⟨none, effect_none fun _ _ => .cut hown⟩
  | displaced hown hproduct hleave =>
    refine ⟨none, effect_none fun top' hshell => ?_⟩
    obtain ⟨fault, hleave'⟩ := exists_leave_error_congr hshell hleave
    exact .displaced hown hproduct hleave'
  | @left product _ hown hproduct hleave =>
    cases product with
    | file bytes =>
      obtain ⟨hzero, names, hopen, -⟩ := write_eq_ok hleave
      refine ⟨some (names, .file bytes), ?_, fun {top'} htop' hshell => ?_⟩
      · rintro _ _ ⟨⟩
        exact hopen
      · have hopen' := (openAt_congr hshell).2 hopen
        exact ⟨_, .left hown hproduct (write_of_openAt hzero hopen' bytes),
          seen_put_of_openAt htop' hopen' rfl⟩
    | dir =>
      obtain ⟨hzero, ⟨names, hplace, -⟩ | ⟨⟨names, rows, hplace⟩, rfl⟩⟩ := makeDir_eq_ok hleave
      · have hopen : (top.place p).OpenAt names := by
          rw [hplace]
          rfl
        refine ⟨some (names, .empty), ?_, fun {top'} htop' hshell => ?_⟩
        · rintro _ _ ⟨⟩
          exact hopen
        · have hleave' := makeDir_of_missing hzero (place_eq_missing_congr hshell hplace)
          exact ⟨_, .left hown hproduct hleave',
            seen_put_of_openAt htop' ((openAt_congr hshell).2 hopen) rfl⟩
      · refine ⟨none, effect_none fun top' hshell => ?_⟩
        obtain ⟨rows', hplace'⟩ := place_eq_dir_congr hshell hplace
        exact .left hown hproduct (makeDir_of_dir hzero hplace')

/-- After a run of the compiler nothing new is looked at on the way to its output. -/
theorem Behaviour.RunsTo.mem_visited {b : Behaviour} {p : Path} {top files : Entry}
    {ending : Ending} (h : b.RunsTo p top ending files) (htop : top.isDir = true)
    {m : List String} (hm : m ∈ files.visited p) : m ∈ top.visited p := by
  cases h with
  | bare | cut | displaced => exact hm
  | @left product _ _ _ hleave =>
    cases product with
    | file bytes =>
      obtain ⟨-, names, hopen, rfl⟩ := write_eq_ok hleave
      exact visited_put htop hopen hm
    | dir =>
      obtain ⟨-, ⟨names, hplace, rfl⟩ | ⟨-, rfl⟩⟩ := makeDir_eq_ok hleave
      · have hopen : (top.place p).OpenAt names := by
          rw [hplace]
          rfl
        exact visited_put htop hopen hm
      · exact hm

theorem Compiler.Judges.congr {c : Compiler} {source : Path} {top top' : Entry} {ending : Ending}
    {result : Except CompileError Path} (h : c.Judges source top ending result)
    (hshell : (top'.place (World.corePath source.parent source)).shell =
      (top.place (World.corePath source.parent source)).shell) :
    c.Judges source top' ending result := by
  cases h with
  | timedOut => exact .timedOut
  | missing => exact .missing
  | failed hstatus => exact .failed hstatus
  | produced hentry =>
    obtain ⟨e, hentry'⟩ := at?_eq_some_congr hshell hentry
    exact .produced hentry'
  | unproduced hentry => exact .unproduced (at?_eq_none_congr hshell hentry)

/-! ## Cells -/

namespace Entry

/-- All directories of `files` are directories of `top`. -/
def Keeps (files top : Entry) : Prop :=
  ∀ m, files.seen m = some .empty → top.seen m = some .empty

theorem Keeps.isDir {files top : Entry} (h : files.Keeps top) (hfiles : files.isDir = true) :
    top.isDir = true := by
  obtain ⟨rows, hrows⟩ := seen_eq_dir.1 (h [] (seen_nil hfiles))
  exact isDir_of_get? hrows

/-- The place of an entry of a directory, which may be there or not. -/
def spot (top : Entry) (names : List String) : Place :=
  match top.get? names with
  | some e => .found names e
  | none => .missing names

theorem shell_spot (top : Entry) (names : List String) :
    (top.spot names).shell =
      match top.seen names with
      | some e => .found names e
      | none => .missing names := by
  rw [spot, seen]
  cases top.get? names <;> rfl

/-- As long as the directories of `files` are kept, a path leads to one cell, if it is not too
long to lead anywhere. -/
inductive Sits (files : Entry) (p : Path) (cell : List String) : Prop
  | far (h : ∀ top, files.Keeps top → top.place p = .overlong)
  | near (h : ∀ top, files.Keeps top → top.place p = top.spot cell)

namespace Sits

variable {files top top' : Entry} {p : Path} {cell : List String} (hsits : files.Sits p cell)
include hsits

theorem shell_eq (htop : files.Keeps top) (htop' : files.Keeps top')
    (hseen : top'.seen cell = top.seen cell) : (top'.place p).shell = (top.place p).shell := by
  cases hsits with
  | far h => rw [h top htop, h top' htop']
  | near h => rw [h top htop, h top' htop', shell_spot, shell_spot, hseen]

theorem eq_of_openAt (htop : files.Keeps top) {names : List String}
    (hopen : (top.place p).OpenAt names) : names = cell := by
  cases hsits with
  | far h =>
    rw [h top htop] at hopen
    cases hopen
  | near h =>
    rw [h top htop, spot] at hopen
    split at hopen
    case h_1 e _ =>
      cases e with
      | file => exact Eq.symm hopen
      | dir => cases hopen
    case h_2 => exact Eq.symm hopen

theorem eq_of_fileAt (htop : files.Keeps top) {names : List String} (hfile : top.FileAt p names) :
    names = cell :=
  hsits.eq_of_openAt htop (fileAt_iff.1 hfile).2.1

/-- On the way to the cell there are directories only. -/
theorem seen_or_openAt (hfiles : files.isDir = true) {m : List String} (hm : m ∈ files.visited p) :
    files.seen m = some .empty ∨ (files.place p).OpenAt m := by
  rcases mem_visited_cases hfiles hm with hdir | hopen | hlost | hblocked
  · exact .inl hdir
  · exact .inr hopen
  · cases hsits with
    | far h => cases (h files fun _ h => h).symm.trans hlost
    | near h =>
      rw [h files fun _ h => h, spot] at hlost
      split at hlost <;> cases hlost
  · cases hsits with
    | far h => cases (h files fun _ h => h).symm.trans hblocked
    | near h =>
      rw [h files fun _ h => h, spot] at hblocked
      split at hblocked <;> cases hblocked

end Sits

end Entry

/-- What the compiler does for a source stays in the cell of its output. -/
theorem Toolbox.Ends.frame {tools : Toolbox} {source : Path} {files top top' : Entry}
    {ending : Ending} {cell : List String} (hends : tools.Ends source top ending top')
    (hfiles : files.isDir = true)
    (hsits : files.Sits (World.corePath source.parent source) cell) (htop : files.Keeps top) :
    files.Keeps top' ∧ ∀ m, m ≠ cell → top'.seen m = top.seen m := by
  obtain ⟨change, heffect⟩ := Behaviour.RunsTo.exists_effect hends
  obtain ⟨_, hends', hseen⟩ := heffect.runs (htop.isDir hfiles) rfl
  obtain ⟨-, rfl⟩ := Compiler.ends_unique hends hends'
  cases change with
  | none => exact ⟨fun m hm => (hseen m).trans (htop m hm), fun m _ => hseen m⟩
  | some change =>
    obtain ⟨names, new⟩ := change
    have hopen := heffect.openAt rfl
    obtain rfl := hsits.eq_of_openAt htop hopen
    refine ⟨fun m hm => ?_, fun m hm => (hseen m).trans (if_neg hm)⟩
    -- No directory is at an open place, so the compiler puts its output over none.
    have hne : m ≠ names := by
      rintro rfl
      obtain ⟨rows, hrows⟩ := seen_eq_dir.1 (htop _ hm)
      rw [hopen.place_eq top] at hopen
      exact get?_of_openAt hopen rows hrows
    exact ((hseen m).trans (if_neg hne)).trans (htop m hm)

/-- A step that looks at a cell of its own and changes no other. -/
structure Local {ι ο : Type} (files : Entry) (step : Entry → ι → ο → Entry → Prop) (i : ι)
    (cell : List String) : Prop where
  frame {top top' : Entry} {o : ο} : step top i o top' → files.Keeps top →
    files.Keeps top' ∧ ∀ m, m ≠ cell → top'.seen m = top.seen m
  transfer {top top' other : Entry} {o : ο} : step top i o top' → files.Keeps top →
    files.Keeps other → other.seen cell = top.seen cell →
    ∃ other', step other i o other' ∧ other'.seen cell = top'.seen cell

theorem Entry.after_congr {top other : Entry} {m : List String} (h : other.seen m = top.seen m)
    (change : Option (List String × Entry)) : other.after change m = top.after change m := by
  cases change with
  | none => exact h
  | some change => rw [after, after, h]

section Steps

variable {files : Entry} (hfiles : files.isDir = true) {cell : List String}
include hfiles

theorem Compiler.local_compiles (c : Compiler) (tools : Toolbox) {source : Path}
    (hsits : files.Sits (World.corePath source.parent source) cell) :
    Local files (fun top source result top' => c.Compiles tools source top result top') source
      cell where
  frame := by
    rintro top top' result ⟨ending, hends, -⟩ htop
    exact hends.frame hfiles hsits htop
  transfer := by
    rintro top top' other result ⟨ending, hends, hjudges⟩ htop hother hagree
    obtain ⟨change, heffect⟩ := Behaviour.RunsTo.exists_effect hends
    obtain ⟨_, hends', hseen⟩ := heffect.runs (htop.isDir hfiles) rfl
    obtain ⟨-, rfl⟩ := Compiler.ends_unique hends hends'
    obtain ⟨other', hother', hseen'⟩ :=
      heffect.runs (hother.isDir hfiles) (hsits.shell_eq htop hother hagree)
    have hcell : other'.seen cell = top'.seen cell := by
      rw [hseen', hseen, after_congr hagree]
    refine ⟨other', ⟨ending, hother', hjudges.congr ?_⟩, hcell⟩
    exact hsits.shell_eq (hends.frame hfiles hsits htop).1
      (Toolbox.Ends.frame hother' hfiles hsits hother).1 hcell

theorem Entry.local_shows {path : Path} (hsits : files.Sits path cell) :
    Local files (fun top path finding top' =>
      Finding.Of path (top.read path) finding ∧ top' = top.cleared path) path cell where
  frame := by
    rintro top _ finding ⟨-, rfl⟩ htop
    have hdir := htop.isDir hfiles
    refine ⟨fun m hm => (seen_cleared_eq_dir hdir path m).1 (htop m hm), fun m hm => ?_⟩
    exact seen_cleared_of_not_fileAt hdir fun hfile => hm (hsits.eq_of_fileAt htop hfile)
  transfer := by
    rintro top _ other finding ⟨hfinding, rfl⟩ htop hother hagree
    have hshell := hsits.shell_eq htop hother hagree
    refine ⟨_, ⟨by rwa [read_congr hshell], rfl⟩, ?_⟩
    by_cases hfile : top.FileAt path cell
    · rw [seen_cleared_of_fileAt (htop.isDir hfiles) hfile,
        seen_cleared_of_fileAt (hother.isDir hfiles) ((fileAt_congr hshell).2 hfile)]
    · rw [seen_cleared_of_not_fileAt (htop.isDir hfiles) hfile,
        seen_cleared_of_not_fileAt (hother.isDir hfiles) (mt (fileAt_congr hshell).1 hfile), hagree]

end Steps

/-! ## Loops with a cell for each step -/

namespace Pass

variable {ι ο : Type} {step : Entry → ι → ο → Entry → Prop} {files : Entry} {rows : List (ι × ο)}
  (cell : ι → List String)

/-- A loop changes nothing but the cells of its steps. -/
theorem frame {top top' : Entry} (hpass : Pass step top rows top')
    (hlocal : ∀ row ∈ rows, Local files step row.1 (cell row.1)) (htop : files.Keeps top) :
    files.Keeps top' ∧ ∀ m, (∀ row ∈ rows, m ≠ cell row.1) → top'.seen m = top.seen m := by
  induction hpass with
  | nil => exact ⟨htop, fun _ _ => rfl⟩
  | cons hfirst hrest ih =>
    obtain ⟨hrow, hlocal⟩ := List.forall_mem_cons.1 hlocal
    obtain ⟨hkeeps, hframe⟩ := hrow.frame hfirst htop
    obtain ⟨hkeeps', hframe'⟩ := ih hlocal hkeeps
    refine ⟨hkeeps', fun m hm => ?_⟩
    obtain ⟨hne, hm⟩ := List.forall_mem_cons.1 hm
    rw [hframe' m hm, hframe m hne]

/-- Steps that have a cell each can be left out, and the others do what they did. -/
theorem filter {top top' other : Entry} (hpass : Pass step top rows top')
    (hlocal : ∀ row ∈ rows, Local files step row.1 (cell row.1))
    (hcells : (rows.map fun row => cell row.1).Nodup) (keep : ι × ο → Bool)
    (htop : files.Keeps top) (hother : files.Keeps other)
    (hagree : ∀ row ∈ rows, keep row = true → other.seen (cell row.1) = top.seen (cell row.1)) :
    ∃ other', Pass step other (rows.filter keep) other' ∧
      ∀ row ∈ rows, keep row = true → other'.seen (cell row.1) = top'.seen (cell row.1) := by
  induction hpass generalizing other with
  | nil => exact ⟨other, .nil other, by simp⟩
  | @cons top mid top' i o rows hfirst hrest ih =>
    obtain ⟨hrow, hlocal⟩ := List.forall_mem_cons.1 hlocal
    obtain ⟨hagree, hothers⟩ := List.forall_mem_cons.1 hagree
    rw [List.map_cons, List.nodup_cons] at hcells
    obtain ⟨hcell, hcells⟩ := hcells
    have hne : ∀ row ∈ rows, cell row.1 ≠ cell i := by
      intro row hmem heq
      exact hcell (List.mem_map.2 ⟨row, hmem, heq⟩)
    obtain ⟨hmid, hframe⟩ := hrow.frame hfirst htop
    cases hkeep : keep (i, o) with
    | false =>
      rw [List.filter_cons_of_neg (by rw [hkeep]; exact Bool.false_ne_true)]
      obtain ⟨other', hpass', hseen⟩ := ih hlocal hcells hmid hother fun row hmem hkept => by
        rw [hothers row hmem hkept, hframe _ (hne row hmem)]
      refine ⟨other', hpass', List.forall_mem_cons.2 ⟨fun h => ?_, hseen⟩⟩
      rw [hkeep] at h
      cases h
    | true =>
      rw [List.filter_cons_of_pos hkeep]
      obtain ⟨next, hnext, hseen⟩ := hrow.transfer hfirst htop hother (hagree hkeep)
      obtain ⟨hkeeps, hframe'⟩ := hrow.frame hnext hother
      obtain ⟨other', hpass', hrows⟩ := ih hlocal hcells hmid hkeeps fun row hmem hkept => by
        rw [hframe' _ (hne row hmem), hothers row hmem hkept, hframe _ (hne row hmem)]
      refine ⟨other', .cons hnext hpass', List.forall_mem_cons.2 ⟨fun _ => ?_, hrows⟩⟩
      -- Neither loop comes back to the cell of the first step.
      rw [(hrest.frame cell hlocal hmid).2 _ fun row hmem => (hne row hmem).symm,
        (hpass'.frame cell (fun row hmem => hlocal row (List.mem_filter.1 hmem).1) hkeeps).2 _
          fun row hmem => (hne row (List.mem_filter.1 hmem).1).symm, hseen]

end Pass

end CallGraph
