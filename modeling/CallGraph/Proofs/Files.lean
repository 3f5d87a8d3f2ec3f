import CallGraph.World.Files

/-!
What is kept when files are written and taken away. The working directory stays a directory, a
path that leads through directories still leads to the same place, and what was written is read
back.
-/

namespace CallGraph.Entry

/-! ## Entries of a directory -/

theorem lookup_cons_eq_ite (k : String) (e : Entry) (entries : List (String × Entry)) (m : String) :
    ((k, e) :: entries).lookup m = if m = k then some e else entries.lookup m := by
  by_cases hm : m = k
  · simp [hm]
  · rw [List.lookup_cons, beq_false_of_ne hm, if_neg hm]

theorem lookup_map_at (entries : List (String × Entry)) (n : String) (f : Entry → Entry)
    (m : String) :
    (entries.map fun entry => if entry.1 == n then (n, f entry.2) else entry).lookup m =
      if m = n then (entries.lookup m).map f else entries.lookup m := by
  induction entries with
  | nil => simp
  | cons entry entries ih =>
    obtain ⟨k, e⟩ := entry
    rw [List.map_cons, lookup_cons_eq_ite k e]
    by_cases hk : k = n
    · rw [if_pos (beq_iff_eq.2 hk), lookup_cons_eq_ite, ih]
      by_cases hm : m = n <;> simp [hm, hk]
    · rw [if_neg (by simpa using hk), lookup_cons_eq_ite, ih]
      by_cases hm : m = n
      · subst hm
        simp [Ne.symm hk]
      · simp [hm]

theorem lookup_putEntry (entries : List (String × Entry)) (n : String) (e : Entry) (m : String) :
    (putEntry entries n e).lookup m = if m = n then some e else entries.lookup m := by
  rw [putEntry]
  split
  case isTrue hsome =>
    obtain ⟨old, hold⟩ := Option.isSome_iff_exists.1 hsome
    rw [lookup_map_at entries n fun _ => e]
    split
    case isTrue hm => rw [hm, hold, Option.map_some]
    case isFalse => rfl
  case isFalse hnone =>
    rw [Option.not_isSome_iff_eq_none] at hnone
    rw [List.lookup_append, lookup_cons_eq_ite]
    split
    case isTrue hm => rw [hm, hnone, Option.none_or]
    case isFalse => rw [List.lookup_nil, Option.or_none]

/-! ## Entries reached by names -/

/-- What leads to a directory leads through directories. -/
theorem isDir_of_get? {top : Entry} {names : List String} {entries : List (String × Entry)}
    (h : top.get? names = some (.dir entries)) : top.isDir = true := by
  cases top with
  | dir => rfl
  | file bytes =>
    cases names with
    | nil => cases h
    | cons => cases h

theorem get?_dropLast {top : Entry} {names : List String} {entries : List (String × Entry)}
    (h : top.get? names = some (.dir entries)) :
    ∃ entries', top.get? names.dropLast = some (.dir entries') := by
  induction names generalizing top with
  | nil => exact ⟨entries, h⟩
  | cons n names ih =>
    cases top with
    | file => cases h
    | dir rows =>
      cases names with
      | nil => exact ⟨rows, rfl⟩
      | cons m names =>
        obtain ⟨e, he, hdir⟩ := Option.bind_eq_some_iff.1 h
        obtain ⟨entries', hentries'⟩ := ih hdir
        refine ⟨entries', ?_⟩
        rw [List.dropLast_cons_cons, get?, he]
        exact hentries'

/-- The entry that was put into a directory is there. -/
theorem get?_put_self {top : Entry} {names : List String} {entries : List (String × Entry)}
    (hparent : top.get? names.dropLast = some (.dir entries)) (new : Entry) :
    (top.put names new).get? names = some new := by
  fun_induction put top names new with
  | case1 => rfl
  | case2 rows n new => rw [get?, lookup_putEntry, if_pos rfl, Option.bind_some, get?]
  | case3 rows n names new hnames ih =>
    rw [List.dropLast_cons_of_ne_nil hnames, get?] at hparent
    obtain ⟨e, he, hdir⟩ := Option.bind_eq_some_iff.1 hparent
    rw [get?, lookup_map_at rows n (put · names new), if_pos rfl, he, Option.map_some,
      Option.bind_some]
    exact ih (n, e) hdir
  | case4 => cases isDir_of_get? hparent

/-- A directory stays one, unless it is at the place itself. -/
theorem get?_put_of_dir {top : Entry} {names ms : List String} {entries : List (String × Entry)}
    (hdir : top.get? ms = some (.dir entries)) (hplace : ∀ rows, top.get? names ≠ some (.dir rows))
    (new : Entry) : ∃ entries', (top.put names new).get? ms = some (.dir entries') := by
  fun_induction put top names new generalizing ms with
  | case1 top new =>
    cases top with
    | dir rows => exact absurd rfl (hplace rows)
    | file => cases isDir_of_get? hdir
  | case2 rows n new =>
    cases ms with
    | nil => exact ⟨_, rfl⟩
    | cons m ms =>
      have hm : m ≠ n := by
        rintro rfl
        obtain ⟨e, he, hdir⟩ := Option.bind_eq_some_iff.1 hdir
        cases e with
        | dir rows' =>
          refine hplace rows' ?_
          rw [get?, he, Option.bind_some, get?]
        | file => cases isDir_of_get? hdir
      rw [get?, lookup_putEntry, if_neg hm]
      exact ⟨entries, hdir⟩
  | case3 rows n names new hnames ih =>
    cases ms with
    | nil => exact ⟨_, rfl⟩
    | cons m ms =>
      rw [get?, lookup_map_at rows n (put · names new)]
      split
      case isTrue hm =>
        subst hm
        obtain ⟨e, he, hdir⟩ := Option.bind_eq_some_iff.1 hdir
        rw [get?, he] at hplace
        rw [he]
        exact ih (m, e) hdir hplace
      case isFalse => exact ⟨entries, hdir⟩
  | case4 => cases isDir_of_get? hdir

/-! ## Places -/

/-- A place where a file can be written: over a file, or where a directory has no entry. -/
def Place.OpenAt (names : List String) : Place → Prop
  | .found ns (.file _) | .missing ns => ns = names
  | .found _ (.dir _) | .lost | .blocked | .overlong => False

/-- There is no directory at an open place. -/
theorem get?_of_openAt {top : Entry} {here parts names : List String}
    (hopen : (follow top here parts).OpenAt names) (rows : List (String × Entry)) :
    top.get? names ≠ some (.dir rows) := by
  fun_induction follow top here parts with
  | case1 here e he =>
    cases e with
    | file =>
      cases hopen
      simp [he]
    | dir => cases hopen
  | case3 here parts ih => exact ih hopen
  | case5 here p parts hp there hsize entries hthere ih => exact ih hopen
  | case6 here p hp there hsize bytes hthere =>
    have hnames : there = names := hopen
    simp [← hnames, hthere]
  | case8 here p hp there hsize hthere =>
    have hnames : there = names := hopen
    simp [← hnames, hthere]
  | case2 | case4 | case7 | case9 => cases hopen

theorem follow_of_dir {top : Entry} {here parts : List String} {p : String}
    {rows : List (String × Entry)} (hp : p ≠ "..") (hsize : ¬ Path.nameLimit < p.utf8ByteSize)
    (hdir : top.get? (here ++ [p]) = some (.dir rows)) :
    follow top here (p :: parts) = follow top (here ++ [p]) parts := by
  rw [follow.eq_def]
  simp [hsize, hdir]

theorem follow_of_file {top : Entry} {here : List String} {p : String} {bytes : ByteArray}
    (hp : p ≠ "..") (hsize : ¬ Path.nameLimit < p.utf8ByteSize)
    (hfile : top.get? (here ++ [p]) = some (.file bytes)) :
    follow top here [p] = .found (here ++ [p]) (.file bytes) := by
  rw [follow.eq_def]
  simp [hsize, hfile]

/-- Once a file is written at an open place, the same path leads to it. -/
theorem follow_put {top : Entry} {here parts names : List String}
    (hhere : ∃ rows, top.get? here = some (.dir rows))
    (hopen : (follow top here parts).OpenAt names) (bytes : ByteArray) :
    follow (top.put names (.file bytes)) here parts = .found names (.file bytes) := by
  have hplace := get?_of_openAt hopen
  fun_induction follow top here parts with
  | case1 here e he =>
    obtain ⟨rows, hrows⟩ := hhere
    rw [hrows] at he
    cases he
    cases hopen
  | case3 here parts ih =>
    obtain ⟨rows, hrows⟩ := hhere
    rw [follow]
    exact ih (get?_dropLast hrows) hopen
  | case5 here p parts hp there hsize entries hthere ih =>
    obtain ⟨rows, hdir⟩ := get?_put_of_dir hthere hplace (.file bytes)
    rw [follow_of_dir hp hsize hdir]
    exact ih ⟨entries, hthere⟩ hopen
  | case6 here p hp there hsize old hthere =>
    have hnames : here ++ [p] = names := hopen
    subst hnames
    obtain ⟨rows, hrows⟩ := hhere
    exact follow_of_file hp hsize (get?_put_self (by rwa [List.dropLast_concat]) (.file bytes))
  | case8 here p hp there hsize hthere =>
    have hnames : here ++ [p] = names := hopen
    subst hnames
    obtain ⟨rows, hrows⟩ := hhere
    exact follow_of_file hp hsize (get?_put_self (by rwa [List.dropLast_concat]) (.file bytes))
  | case2 | case4 | case7 | case9 => cases hopen

theorem get?_of_follow {top e : Entry} {here parts names : List String}
    (h : follow top here parts = .found names e) : top.get? names = some e := by
  fun_induction follow top here parts with
  | case1 here e he =>
    cases h
    exact he
  | case3 here parts ih => exact ih h
  | case5 here p parts hp there hsize entries hthere ih => exact ih h
  | case6 here p hp there hsize bytes hthere =>
    injection h with hnames he
    rw [← hnames, ← he]
    exact hthere
  | case2 | case4 | case7 | case8 | case9 => cases h

/-- Whether a path leads anywhere in the working directory is seen from the path alone. -/
theorem place_eq_follow {top : Entry} {p : Path} (hlost : top.place p ≠ .lost)
    (hlong : top.place p ≠ .overlong) (top' : Entry) : top'.place p = follow top' [] p.parts := by
  rw [place] at hlost hlong ⊢
  split at hlong
  case isTrue => exact absurd rfl hlong
  case isFalse hlength =>
    rw [if_neg hlength] at hlost ⊢
    split at hlost
    case isTrue hroot => rw [if_pos hroot]
    case isFalse => exact absurd rfl hlost

theorem Place.OpenAt.place_eq {top : Entry} {p : Path} {names : List String}
    (hopen : (top.place p).OpenAt names) (top' : Entry) :
    top'.place p = follow top' [] p.parts := by
  have hlost : top.place p ≠ .lost := by
    intro h
    rw [h] at hopen
    cases hopen
  have hlong : top.place p ≠ .overlong := by
    intro h
    rw [h] at hopen
    cases hopen
  exact place_eq_follow hlost hlong top'

/-! ## Writing and reading -/

/-- What leads to a directory in the working directory shows that this is one. -/
theorem isDir_of_at? {top : Entry} {p : Path} {rows : List (String × Entry)}
    (h : top.at? p = .ok (some (.dir rows))) : top.isDir = true := by
  rw [at?] at h
  split at h
  case isTrue => cases h
  case isFalse =>
    split at h
    case h_1 names e hplace =>
      cases h
      have hfollow := place_eq_follow (by rw [hplace]; exact Place.noConfusion)
        (by rw [hplace]; exact Place.noConfusion) top
      exact isDir_of_get? (get?_of_follow (hfollow.symm.trans hplace))
    all_goals cases h

theorem hasZero_of_at? {top e : Entry} {p : Path} (h : top.at? p = .ok (some e)) :
    p.hasZero = false := by
  rw [at?] at h
  split at h
  case isTrue => cases h
  case isFalse hzero => exact Bool.eq_false_iff.2 hzero

theorem isDir_put {top : Entry} {names : List String} (htop : top.isDir = true)
    (hnames : names ≠ []) (new : Entry) : (top.put names new).isDir = true := by
  fun_cases put top names new with
  | case1 => exact absurd rfl hnames
  | case2 | case3 => rfl
  | case4 => exact htop

theorem isDir_erase {top : Entry} (htop : top.isDir = true) (names : List String) :
    (top.erase names).isDir = true := by
  fun_cases erase top names with
  | case1 | case4 => exact htop
  | case2 | case3 => rfl

theorem onPlace_eq_ok {α : Type} {top : Entry} {p : Path} {f : Place → Except OsError α} {a : α}
    (h : top.onPlace p f = .ok a) : p.hasZero = false ∧ f (top.place p) = .ok a := by
  rw [onPlace] at h
  split at h
  case isTrue => cases h
  case isFalse hzero =>
    refine ⟨Bool.eq_false_iff.2 hzero, ?_⟩
    cases hf : f (top.place p) with
    | ok b =>
      rw [hf] at h
      cases h
      rfl
    | error e =>
      rw [hf] at h
      cases h

/-- Nothing but the system and a path that stands for none are in the way. -/
theorem onPlace_eq_error {α : Type} {top : Entry} {p : Path} {f : Place → Except OsError α}
    {fault : Fault} (h : top.onPlace p f = .error fault) :
    p.hasZero = true ∨ ∃ e, fault = .os e := by
  rw [onPlace] at h
  split at h
  case isTrue hzero => exact .inl hzero
  case isFalse =>
    cases hf : f (top.place p) with
    | ok a =>
      rw [hf] at h
      cases h
    | error e =>
      rw [hf] at h
      cases h
      exact .inr ⟨e, rfl⟩

theorem onPlace_eq_os {α : Type} {top : Entry} {p : Path} {f : Place → Except OsError α}
    {e : OsError} (h : top.onPlace p f = .error (.os e)) : p.hasZero = false := by
  rw [onPlace] at h
  split at h
  case isTrue => cases h
  case isFalse hzero => exact Bool.eq_false_iff.2 hzero

theorem write_eq_ok {top top' : Entry} {p : Path} {bytes : ByteArray}
    (h : top.write p bytes = .ok top') :
    p.hasZero = false ∧
      ∃ names, (top.place p).OpenAt names ∧ top' = top.put names (.file bytes) := by
  obtain ⟨hzero, h⟩ := onPlace_eq_ok h
  refine ⟨hzero, ?_⟩
  split at h
  case h_1 names old hplace =>
    cases h
    exact ⟨names, by rw [hplace]; rfl, rfl⟩
  case h_2 names hplace =>
    cases h
    exact ⟨names, by rw [hplace]; rfl, rfl⟩
  all_goals cases h

/-- What was written is read back. -/
theorem read_of_write {top top' : Entry} {p : Path} {bytes : ByteArray}
    (htop : top.isDir = true) (h : top.write p bytes = .ok top') : top'.read p = .ok bytes := by
  obtain ⟨hzero, names, hopen, rfl⟩ := write_eq_ok h
  have hplace := hopen.place_eq (top.put names (.file bytes))
  have htop' : ∃ rows, top.get? [] = some (.dir rows) := by
    cases top with
    | dir rows => exact ⟨rows, rfl⟩
    | file => cases htop
  rw [hopen.place_eq top] at hopen
  rw [follow_put htop' hopen] at hplace
  rw [read, onPlace, hzero, hplace]
  rfl

/-! ## The working directory -/

theorem Place.OpenAt.ne_nil {top : Entry} {p : Path} {names : List String}
    (hopen : (top.place p).OpenAt names) (htop : top.isDir = true) : names ≠ [] := by
  rintro rfl
  rw [hopen.place_eq top] at hopen
  cases top with
  | dir rows => exact get?_of_openAt hopen rows rfl
  | file => cases htop

theorem isDir_of_write {top top' : Entry} {p : Path} {bytes : ByteArray}
    (htop : top.isDir = true) (h : top.write p bytes = .ok top') : top'.isDir = true := by
  obtain ⟨-, names, hopen, rfl⟩ := write_eq_ok h
  exact isDir_put htop (hopen.ne_nil htop) _

theorem isDir_of_makeDir {top top' : Entry} {p : Path} (htop : top.isDir = true)
    (h : top.makeDir p = .ok top') : top'.isDir = true := by
  obtain ⟨-, h⟩ := onPlace_eq_ok h
  split at h
  case h_1 names hplace =>
    cases h
    have hopen : (top.place p).OpenAt names := by rw [hplace]; rfl
    exact isDir_put htop (hopen.ne_nil htop) _
  case h_2 =>
    cases h
    exact htop
  all_goals cases h

theorem isDir_of_remove {top top' : Entry} {p : Path} (htop : top.isDir = true)
    (h : top.remove p = .ok top') : top'.isDir = true := by
  obtain ⟨-, h⟩ := onPlace_eq_ok h
  split at h
  case h_1 names bytes hplace =>
    cases h
    exact isDir_erase htop names
  all_goals cases h

end CallGraph.Entry
