import CallGraph.Proofs.Files

/-!
What is seen of the files by names, whatever the order in which directories list their entries. Where
a path leads is decided by what is seen on its way, and to write a file or to take one away changes
what is seen at one place only.
-/

namespace CallGraph.Entry

/-- An entry without what is in it. -/
def shell : Entry → Entry
  | .file bytes => .file bytes
  | .dir _ => .empty

/-- What is seen at the end of the names: nothing, a file with its bytes, or a directory. -/
def seen (top : Entry) (names : List String) : Option Entry := (top.get? names).map shell

/-- The same files and directories, perhaps listed in another order. -/
def Alike (a b : Entry) : Prop := ∀ names, a.seen names = b.seen names

theorem seen_of_get? {top e : Entry} {names : List String} (h : top.get? names = some e) :
    top.seen names = some e.shell := by
  rw [seen, h, Option.map_some]

theorem seen_eq_none {top : Entry} {names : List String} :
    top.seen names = none ↔ top.get? names = none :=
  Option.map_eq_none_iff

theorem seen_eq_dir {top : Entry} {names : List String} :
    top.seen names = some .empty ↔ ∃ rows, top.get? names = some (.dir rows) := by
  constructor
  · intro h
    obtain ⟨e, he, hshell⟩ := Option.map_eq_some_iff.1 h
    cases e with
    | file => cases hshell
    | dir rows => exact ⟨rows, he⟩
  · rintro ⟨rows, h⟩
    exact seen_of_get? h

theorem seen_eq_file {top : Entry} {names : List String} {bytes : ByteArray} :
    top.seen names = some (.file bytes) ↔ top.get? names = some (.file bytes) := by
  constructor
  · intro h
    obtain ⟨e, he, hshell⟩ := Option.map_eq_some_iff.1 h
    cases e with
    | file =>
      cases hshell
      exact he
    | dir => cases hshell
  · exact seen_of_get?

theorem get?_of_seen_eq {top top' : Entry} {names : List String}
    (h : top'.seen names = top.seen names) (hdir : ∀ rows, top.get? names ≠ some (.dir rows)) :
    top'.get? names = top.get? names := by
  cases hget : top.get? names with
  | none => rwa [seen_eq_none.2 hget, seen_eq_none] at h
  | some e =>
    cases e with
    | file => rwa [seen_eq_file.2 hget, seen_eq_file] at h
    | dir rows => exact absurd hget (hdir rows)

theorem seen_nil {top : Entry} (htop : top.isDir = true) : top.seen [] = some .empty := by
  cases top with
  | dir => rfl
  | file => cases htop

/-! ## Changes at one place -/

theorem lookup_filter_ne (entries : List (String × Entry)) (n m : String) :
    (entries.filter (·.1 != n)).lookup m = if m = n then none else entries.lookup m := by
  induction entries with
  | nil => simp
  | cons entry entries ih =>
    obtain ⟨k, e⟩ := entry
    by_cases hk : k = n
    · rw [List.filter_cons_of_neg (by simpa using hk), ih, lookup_cons_eq_ite]
      by_cases hm : m = n <;> simp [hm, hk]
    · rw [List.filter_cons_of_pos (by simpa using hk), lookup_cons_eq_ite, ih, lookup_cons_eq_ite]
      by_cases hm : m = k
      · rw [if_pos hm, if_neg (hm ▸ hk), if_pos hm]
      · rw [if_neg hm, if_neg hm]

theorem seen_dir_cons (rows : List (String × Entry)) (m : String) (ms : List String) :
    (Entry.dir rows).seen (m :: ms) = (rows.lookup m).bind (seen · ms) := by
  rw [seen, get?]
  cases rows.lookup m <;> rfl

/-- What is put into a directory is seen there, and nothing else changes. -/
theorem seen_put {top : Entry} {names : List String} {entries : List (String × Entry)}
    (hparent : top.get? names.dropLast = some (.dir entries))
    (hplace : ∀ rows, top.get? names ≠ some (.dir rows)) {new : Entry} (hnew : new.shell = new)
    (ms : List String) : (top.put names new).seen ms = if ms = names then some new else top.seen ms := by
  fun_induction put top names new generalizing ms with
  | case1 top new =>
    rw [List.dropLast_nil] at hparent
    exact absurd hparent (hplace entries)
  | case2 rows n new =>
    cases ms with
    | nil => rfl
    | cons m ms =>
      rw [seen_dir_cons, seen_dir_cons, lookup_putEntry]
      by_cases hm : m = n
      · subst hm
        rw [if_pos rfl, Option.bind_some]
        cases ms with
        | nil => rw [if_pos rfl, seen_of_get? rfl, hnew]
        | cons x ms =>
          have hbelow : (rows.lookup m).bind (seen · (x :: ms)) = none := by
            cases hlookup : rows.lookup m with
            | none => rfl
            | some e =>
              cases e with
              | file => rfl
              | dir rows' => exact absurd (by rw [get?, hlookup]; rfl) (hplace rows')
          rw [if_neg (by simp), hbelow]
          cases new with
          | file => rfl
          | dir =>
            cases hnew
            rfl
      · rw [if_neg hm, if_neg (by simp [hm])]
  | case3 rows n names new hnames ih =>
    cases ms with
    | nil => rfl
    | cons m ms =>
      rw [seen_dir_cons, seen_dir_cons, lookup_map_at rows n (put · names new)]
      by_cases hm : m = n
      · subst hm
        rw [List.dropLast_cons_of_ne_nil hnames, get?] at hparent
        obtain ⟨e, he, hdir⟩ := Option.bind_eq_some_iff.1 hparent
        rw [if_pos rfl, he, Option.map_some, Option.bind_some, Option.bind_some]
        have hbelow := ih (m, e) hdir (by rwa [get?, he] at hplace) hnew ms
        simpa using hbelow
      · rw [if_neg hm, if_neg (by simp [hm])]
  | case4 => cases isDir_of_get? hparent

/-- A file that is taken away is no longer seen, and nothing else changes. -/
theorem seen_erase {top : Entry} {names : List String} {bytes : ByteArray} (hnames : names ≠ [])
    (hfile : top.get? names = some (.file bytes)) (ms : List String) :
    (top.erase names).seen ms = if ms = names then none else top.seen ms := by
  fun_induction erase top names generalizing ms with
  | case1 => exact absurd rfl hnames
  | case2 rows n =>
    cases ms with
    | nil => rfl
    | cons m ms =>
      rw [seen_dir_cons, seen_dir_cons, lookup_filter_ne]
      by_cases hm : m = n
      · subst hm
        rw [if_pos rfl, Option.bind_none]
        obtain ⟨e, he, hnil⟩ := Option.bind_eq_some_iff.1 hfile
        cases ms with
        | nil => rw [if_pos rfl]
        | cons x ms =>
          cases hnil
          rw [if_neg (by simp), he]
          rfl
      · rw [if_neg hm, if_neg (by simp [hm])]
  | case3 rows n names hne ih =>
    cases ms with
    | nil => rfl
    | cons m ms =>
      rw [seen_dir_cons, seen_dir_cons, lookup_map_at rows n (erase · names)]
      by_cases hm : m = n
      · subst hm
        obtain ⟨e, he, hfile⟩ := Option.bind_eq_some_iff.1 hfile
        rw [if_pos rfl, he, Option.map_some, Option.bind_some, Option.bind_some]
        have hbelow := ih (m, e) hne hfile ms
        simpa using hbelow
      · rw [if_neg hm, if_neg (by simp [hm])]
  | case4 => cases hfile

/-! ## Where paths lead -/

/-- A place without what is in the entry that is found. -/
def Place.shell : Place → Place
  | .found names e => .found names e.shell
  | .missing names => .missing names
  | .lost => .lost
  | .blocked => .blocked
  | .overlong => .overlong

/-- What is looked at on the way along the components of a path, from the directory at `here`. -/
def lookups (top : Entry) (here : List String) : List String → List (List String)
  | [] => [here]
  | ".." :: parts => lookups top here.dropLast parts
  | p :: parts =>
    let there := here ++ [p]
    if Path.nameLimit < p.utf8ByteSize then []
    else
      match top.get? there with
      | some (.dir _) => there :: lookups top there parts
      | some (.file _) | none => [there]

theorem lookups_of_dir {top : Entry} {here parts : List String} {p : String}
    {rows : List (String × Entry)} (hp : p ≠ "..") (hsize : ¬ Path.nameLimit < p.utf8ByteSize)
    (hdir : top.get? (here ++ [p]) = some (.dir rows)) :
    lookups top here (p :: parts) = (here ++ [p]) :: lookups top (here ++ [p]) parts := by
  rw [lookups.eq_def]
  simp [hsize, hdir]

theorem lookups_of_not_dir {top : Entry} {here parts : List String} {p : String} (hp : p ≠ "..")
    (hsize : ¬ Path.nameLimit < p.utf8ByteSize)
    (hdir : ∀ rows, top.get? (here ++ [p]) ≠ some (.dir rows)) :
    lookups top here (p :: parts) = [here ++ [p]] := by
  rw [lookups.eq_def]
  simp only [hsize, if_false]
  split
  case h_1 rows h => exact absurd h (hdir rows)
  all_goals rfl

theorem follow_of_not_dir {top : Entry} {here parts : List String} {p : String} (hp : p ≠ "..")
    (hsize : ¬ Path.nameLimit < p.utf8ByteSize)
    (hdir : ∀ rows, top.get? (here ++ [p]) ≠ some (.dir rows)) :
    follow top here (p :: parts) =
      match top.get? (here ++ [p]), parts with
      | some e, [] => .found (here ++ [p]) e
      | some _, _ :: _ => .blocked
      | none, [] => .missing (here ++ [p])
      | none, _ :: _ => .lost := by
  rw [follow.eq_def]
  simp only [hsize, if_false]
  cases h : top.get? (here ++ [p]) with
  | none => cases parts <;> rfl
  | some e =>
    cases e with
    | file => cases parts <;> rfl
    | dir rows => exact absurd h (hdir rows)

/-- Where a path leads depends on nothing but what is looked at. -/
theorem follow_congr {top top' : Entry} {here parts : List String}
    (h : ∀ m ∈ lookups top here parts, top'.seen m = top.seen m) :
    (follow top' here parts).shell = (follow top here parts).shell := by
  fun_induction follow top here parts with
  | case1 here e he =>
    have hseen := h here List.mem_cons_self
    rw [seen_of_get? he] at hseen
    obtain ⟨e', he', hshell⟩ := Option.map_eq_some_iff.1 hseen
    rw [follow, he']
    exact congrArg (Place.found here) hshell
  | case2 here he =>
    have hseen := h here List.mem_cons_self
    rw [seen_eq_none.2 he, seen_eq_none] at hseen
    rw [follow, hseen]
  | case3 here parts ih =>
    rw [follow]
    exact ih (by rwa [lookups] at h)
  | case4 here p parts hp hsize =>
    rw [follow.eq_def]
    simp [hsize]
  | case5 here p parts hp there hsize entries hthere ih =>
    rw [lookups_of_dir hp hsize hthere] at h
    have hseen := h there List.mem_cons_self
    rw [seen_of_get? hthere] at hseen
    obtain ⟨rows, hrows⟩ := seen_eq_dir.1 hseen
    rw [follow_of_dir hp hsize hrows]
    exact ih fun m hm => h m (List.mem_cons_of_mem _ hm)
  | case6 here p hp there hsize bytes hthere | case7 here p hp there hsize bytes q parts hthere
  | case8 here p hp there hsize hthere | case9 here p hp there hsize q parts hthere =>
    have hdir : ∀ rows, top.get? (here ++ [p]) ≠ some (.dir rows) := by simp [there, hthere]
    rw [lookups_of_not_dir hp hsize hdir] at h
    have hget := get?_of_seen_eq (h there List.mem_cons_self) hdir
    rw [follow_of_not_dir hp hsize (by rwa [hget]), hget, hthere]

/-! ## Open places -/

section Open

variable {top top' : Entry} {here parts names : List String}

theorem parent_of_openAt (hhere : ∃ rows, top.get? here = some (.dir rows))
    (hopen : (follow top here parts).OpenAt names) :
    ∃ rows, top.get? names.dropLast = some (.dir rows) := by
  fun_induction follow top here parts with
  | case1 here e he =>
    obtain ⟨rows, hrows⟩ := hhere
    rw [hrows] at he
    cases he
    cases hopen
  | case3 here parts ih =>
    obtain ⟨rows, hrows⟩ := hhere
    exact ih (get?_dropLast hrows) hopen
  | case5 here p parts hp there hsize entries hthere ih => exact ih ⟨entries, hthere⟩ hopen
  | case6 here p hp there hsize bytes hthere | case8 here p hp there hsize hthere =>
    have hnames : here ++ [p] = names := hopen
    rwa [← hnames, List.dropLast_concat]
  | case2 | case4 | case7 | case9 => cases hopen

/-- An open place is looked at. -/
theorem mem_lookups_of_openAt (hopen : (follow top here parts).OpenAt names) :
    names ∈ lookups top here parts := by
  fun_induction follow top here parts with
  | case1 here e he =>
    cases e with
    | file =>
      cases hopen
      exact List.mem_cons_self
    | dir => cases hopen
  | case3 here parts ih =>
    rw [lookups]
    exact ih hopen
  | case5 here p parts hp there hsize entries hthere ih =>
    rw [lookups_of_dir hp hsize hthere]
    exact List.mem_cons_of_mem _ (ih hopen)
  | case6 here p hp there hsize bytes hthere | case8 here p hp there hsize hthere =>
    have hnames : here ++ [p] = names := hopen
    rw [lookups_of_not_dir hp hsize (by simp [there, hthere]), hnames]
    exact List.mem_cons_self
  | case2 | case4 | case7 | case9 => cases hopen

/-- Which place is open depends on the directories only. -/
theorem openAt_of_dirs (hdirs : ∀ m, top.seen m = some .empty ↔ top'.seen m = some .empty)
    (hhere : ∃ rows, top.get? here = some (.dir rows))
    (hopen : (follow top here parts).OpenAt names) : (follow top' here parts).OpenAt names := by
  fun_induction follow top here parts with
  | case1 here e he =>
    obtain ⟨rows, hrows⟩ := hhere
    rw [hrows] at he
    cases he
    cases hopen
  | case3 here parts ih =>
    obtain ⟨rows, hrows⟩ := hhere
    rw [follow]
    exact ih (get?_dropLast hrows) hopen
  | case5 here p parts hp there hsize entries hthere ih =>
    obtain ⟨rows, hrows⟩ := seen_eq_dir.1 ((hdirs there).1 (seen_of_get? hthere))
    rw [follow_of_dir hp hsize hrows]
    exact ih ⟨entries, hthere⟩ hopen
  | case6 here p hp there hsize bytes hthere | case8 here p hp there hsize hthere =>
    have hdir : ∀ rows, top'.get? (here ++ [p]) ≠ some (.dir rows) := by
      intro rows hrows
      obtain ⟨rows', hrows'⟩ := seen_eq_dir.1 ((hdirs _).2 (seen_of_get? hrows))
      rw [hthere] at hrows'
      cases hrows'
    rw [follow_of_not_dir hp hsize hdir]
    cases hget : top'.get? (here ++ [p]) with
    | none => exact hopen
    | some e =>
      cases e with
      | file => exact hopen
      | dir rows => exact absurd hget (hdir rows)
  | case2 | case4 | case7 | case9 => cases hopen

/-- On the way to an open place nothing new is looked at when something is put there. -/
theorem lookups_put (hhere : ∃ rows, top.get? here = some (.dir rows))
    (hopen : (follow top here parts).OpenAt names) {new : Entry} {m : List String}
    (hm : m ∈ lookups (top.put names new) here parts) : m ∈ lookups top here parts := by
  have hplace := get?_of_openAt hopen
  fun_induction follow top here parts with
  | case1 here e he => exact hm
  | case3 here parts ih =>
    obtain ⟨rows, hrows⟩ := hhere
    rw [lookups] at hm ⊢
    exact ih (get?_dropLast hrows) hopen hm
  | case5 here p parts hp there hsize entries hthere ih =>
    obtain ⟨rows, hdir⟩ := get?_put_of_dir hthere hplace new
    rw [lookups_of_dir hp hsize hdir] at hm
    rw [lookups_of_dir hp hsize hthere]
    rcases List.mem_cons.1 hm with rfl | hm
    · exact List.mem_cons_self
    · exact List.mem_cons_of_mem _ (ih ⟨entries, hthere⟩ hopen hm)
  | case6 here p hp there hsize bytes hthere | case8 here p hp there hsize hthere =>
    rw [lookups_of_not_dir hp hsize (by simp [there, hthere]), List.mem_singleton]
    -- What was put there may be a directory, which is looked at once more.
    rw [lookups.eq_def] at hm
    simp only [hsize, if_false] at hm
    split at hm
    · simpa [lookups] using hm
    · simpa using hm
    · simpa using hm
  | case2 | case4 | case7 | case9 => cases hopen

/-- What is looked at is a directory, or the end of the way. -/
theorem mem_lookups_cases (hhere : ∃ rows, top.get? here = some (.dir rows)) {m : List String}
    (hm : m ∈ lookups top here parts) :
    top.seen m = some .empty ∨ (follow top here parts).OpenAt m ∨
      follow top here parts = .lost ∨ follow top here parts = .blocked := by
  fun_induction follow top here parts with
  | case1 here | case2 here =>
    obtain ⟨rows, hrows⟩ := hhere
    rw [List.mem_singleton.1 hm]
    exact .inl (seen_of_get? hrows)
  | case3 here parts ih =>
    obtain ⟨rows, hrows⟩ := hhere
    rw [lookups] at hm
    exact ih (get?_dropLast hrows) hm
  | case4 here p parts hp hsize =>
    rw [lookups.eq_def] at hm
    simp [hsize] at hm
  | case5 here p parts hp there hsize entries hthere ih =>
    rw [lookups_of_dir hp hsize hthere] at hm
    rcases List.mem_cons.1 hm with rfl | hm
    · exact .inl (seen_of_get? hthere)
    · exact ih ⟨entries, hthere⟩ hm
  | case6 here p hp there hsize bytes hthere | case8 here p hp there hsize hthere =>
    rw [lookups_of_not_dir hp hsize (by simp [there, hthere])] at hm
    exact .inr (.inl (List.mem_singleton.1 hm).symm)
  | case7 => exact .inr (.inr (.inr rfl))
  | case9 => exact .inr (.inr (.inl rfl))

end Open

/-! ## Paths in the working directory -/

/-- What is looked at on the way along a path. -/
def visited (top : Entry) (p : Path) : List (List String) :=
  if Path.pathLimit < p.text.utf8ByteSize then []
  else if p.root == "" then lookups top [] p.parts
  else []

theorem place_congr {top top' : Entry} {p : Path}
    (h : ∀ m ∈ top.visited p, top'.seen m = top.seen m) :
    (top'.place p).shell = (top.place p).shell := by
  rw [place, place]
  rw [visited] at h
  split at h
  case isTrue hlong => rw [if_pos hlong, if_pos hlong]
  case isFalse hlong =>
    rw [if_neg hlong, if_neg hlong]
    split at h
    case isTrue hroot =>
      rw [if_pos hroot, if_pos hroot]
      exact follow_congr h
    case isFalse hroot => rw [if_neg hroot, if_neg hroot]

/-- What is made of a place, if the entry that is found matters only from outside. -/
theorem onPlace_congr {α : Type} {top top' : Entry} {p : Path} {f : Place → Except OsError α}
    (hf : ∀ place, f place.shell = f place) (h : (top'.place p).shell = (top.place p).shell) :
    top'.onPlace p f = top.onPlace p f := by
  rw [onPlace, onPlace, ← hf (top'.place p), h, hf]

theorem read_congr {top top' : Entry} {p : Path} (h : (top'.place p).shell = (top.place p).shell) :
    top'.read p = top.read p := by
  refine onPlace_congr (fun place => ?_) h
  rcases place with ⟨names, _ | _⟩ | _ | _ | _ | _ <;> rfl

theorem openAt_shell {place : Place} {names : List String} :
    place.shell.OpenAt names ↔ place.OpenAt names := by
  rcases place with ⟨ns, _ | _⟩ | _ | _ | _ | _ <;> exact Iff.rfl

theorem mem_visited_of_openAt {top : Entry} {p : Path} {names : List String}
    (hopen : (top.place p).OpenAt names) : names ∈ top.visited p := by
  rw [place] at hopen
  rw [visited]
  split
  case isTrue hlong =>
    rw [if_pos hlong] at hopen
    cases hopen
  case isFalse hlong =>
    rw [if_neg hlong] at hopen
    split
    case isTrue hroot =>
      rw [if_pos hroot] at hopen
      exact mem_lookups_of_openAt hopen
    case isFalse hroot =>
      rw [if_neg hroot] at hopen
      cases hopen

section Directory

variable {top top' : Entry} (htop : top.isDir = true)
include htop

theorem exists_rows : ∃ rows, top.get? [] = some (.dir rows) := seen_eq_dir.1 (seen_nil htop)

/-- Which place is open for a path depends on the directories only. -/
theorem place_openAt_of_dirs (hdirs : ∀ m, top.seen m = some .empty ↔ top'.seen m = some .empty)
    {p : Path} {names : List String} (hopen : (top.place p).OpenAt names) :
    (top'.place p).OpenAt names := by
  rw [hopen.place_eq top']
  rw [hopen.place_eq top] at hopen
  exact openAt_of_dirs hdirs (exists_rows htop) hopen

/-- What is put at an open place is seen there, and nothing else changes. -/
theorem seen_put_of_openAt {p : Path} {names : List String} (hopen : (top.place p).OpenAt names)
    {new : Entry} (hnew : new.shell = new) (ms : List String) :
    (top.put names new).seen ms = if ms = names then some new else top.seen ms := by
  rw [hopen.place_eq top] at hopen
  obtain ⟨rows, hparent⟩ := parent_of_openAt (exists_rows htop) hopen
  exact seen_put hparent (get?_of_openAt hopen) hnew ms

theorem visited_put {p : Path} {names : List String} (hopen : (top.place p).OpenAt names)
    {new : Entry} {m : List String} (hm : m ∈ (top.put names new).visited p) :
    m ∈ top.visited p := by
  rw [hopen.place_eq top] at hopen
  rw [visited] at hm ⊢
  split at hm
  case isTrue => cases hm
  case isFalse hlong =>
    rw [if_neg hlong]
    split at hm
    case isTrue hroot =>
      rw [if_pos hroot]
      exact lookups_put (exists_rows htop) hopen hm
    case isFalse => cases hm

theorem mem_visited_cases {p : Path} {m : List String} (hm : m ∈ top.visited p) :
    top.seen m = some .empty ∨ (top.place p).OpenAt m ∨ top.place p = .lost ∨
      top.place p = .blocked := by
  rw [visited] at hm
  rw [place]
  split at hm
  case isTrue => cases hm
  case isFalse hlong =>
    rw [if_neg hlong]
    split at hm
    case isTrue hroot =>
      rw [if_pos hroot]
      exact mem_lookups_cases (exists_rows htop) hm
    case isFalse => cases hm

end Directory

end CallGraph.Entry
