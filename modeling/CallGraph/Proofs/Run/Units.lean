import CallGraph.Proofs.Run.Cells

/-!
The units of a run. The sources below a directory and the outputs that the compiler puts beside them
have a cell each, which depends on nothing but the directories, and the text of a path tells sources
apart.
-/

namespace CallGraph

open Entry

/-! ## Texts of paths -/

/-- Below a directory different paths are written differently. -/
theorem Path.text_down_inj {root : Path} {as bs : List String} (has : as ≠ []) (hbs : bs ≠ [])
    (hslash : ∀ n ∈ as, '/' ∉ n.toList) (hslash' : ∀ n ∈ bs, '/' ∉ n.toList)
    (h : (root.down as).text = (root.down bs).text) : as = bs := by
  have htext {names : List String} (hnames : names ≠ []) :
      (root.down names).text = root.root ++ String.intercalate "/" (root.parts ++ names) := by
    have hparts : (root.parts ++ names).isEmpty = false := by simp [hnames]
    rw [text, down, hparts, Bool.and_false]
    rfl
  have hsplit {names : List String} (hnames : names ≠ []) (hslash : ∀ n ∈ names, '/' ∉ n.toList) :
      (String.intercalate "/" names).toList.splitOn '/' = names.map String.toList := by
    rw [String.toList_intercalate]
    refine List.splitOn_intercalate '/' ?_ (by simpa using hnames)
    rintro _ hmem
    obtain ⟨n, hn, rfl⟩ := List.mem_map.1 hmem
    exact hslash n hn
  have hjoined : String.intercalate "/" as = String.intercalate "/" bs := by
    rw [htext has, htext hbs, String.append_right_inj] at h
    by_cases hparts : root.parts = []
    · rwa [hparts, List.nil_append, List.nil_append] at h
    · rwa [String.intercalate_append_of_ne_nil hparts has,
        String.intercalate_append_of_ne_nil hparts hbs, String.append_right_inj] at h
  have hlists : as.map String.toList = bs.map String.toList := by
    rw [← hsplit has hslash, ← hsplit hbs hslash', hjoined]
  exact (List.map_inj_right fun _ _ => String.toList_inj.1).1 hlists

theorem Path.mem_stem {p : Path} {c : Char} (h : c ∈ p.stem.toList) : c ∈ p.name.toList := by
  rw [stem] at h
  split at h
  · exact h
  · rw [String.toList_ofList, List.mem_reverse] at h
    exact List.mem_reverse.1 (List.mem_of_mem_drop h)

/-! ## Paths that go on from a directory -/

namespace Entry

theorem follow_append {top : Entry} {here parts home : List String} {rows : List (String × Entry)}
    (h : follow top here parts = .found home (.dir rows)) (rest : List String) :
    follow top here (parts ++ rest) = follow top home rest := by
  fun_induction follow top here parts with
  | case1 here e he =>
    cases h
    rfl
  | case3 here parts ih =>
    rw [List.cons_append, follow]
    exact ih h
  | case5 here p parts hp there hsize entries hthere ih =>
    rw [List.cons_append, follow_of_dir hp hsize hthere]
    exact ih h
  | case6 =>
    injection h with _ he
    cases he
  | case2 | case4 | case7 | case8 | case9 => cases h

theorem Keeps.follow_eq {files top : Entry} {here parts home : List String}
    {rows : List (String × Entry)} (hkeeps : files.Keeps top)
    (h : follow files here parts = .found home (.dir rows)) :
    ∃ rows', follow top here parts = .found home (.dir rows') := by
  fun_induction follow files here parts with
  | case1 here e he =>
    cases h
    obtain ⟨rows', hrows'⟩ := seen_eq_dir.1 (hkeeps _ (seen_of_get? he))
    exact ⟨rows', by rw [follow, hrows']⟩
  | case3 here parts ih =>
    rw [follow]
    exact ih h
  | case5 here p parts hp there hsize entries hthere ih =>
    obtain ⟨rows', hrows'⟩ := seen_eq_dir.1 (hkeeps _ (seen_of_get? hthere))
    rw [follow_of_dir hp hsize hrows']
    exact ih h
  | case6 =>
    injection h with _ he
    cases he
  | case2 | case4 | case7 | case8 | case9 => cases h

theorem follow_dirs {top : Entry} {here dirs : List String} {rows : List (String × Entry)}
    (hnames : ∀ d ∈ dirs, IsName d) (hdir : top.get? (here ++ dirs) = some (.dir rows))
    (rest : List String) : follow top here (dirs ++ rest) = follow top (here ++ dirs) rest := by
  induction dirs generalizing here with
  | nil => rw [List.nil_append, List.append_nil]
  | cons d dirs ih =>
    obtain ⟨hd, hnames⟩ := List.forall_mem_cons.1 hnames
    have hassoc : here ++ d :: dirs = here ++ [d] ++ dirs := by simp
    have hthere : ∃ rows', top.get? (here ++ [d]) = some (.dir rows') := by
      rw [hassoc] at hdir
      by_cases hnil : dirs = []
      · rw [hnil, List.append_nil] at hdir
        exact ⟨rows, hdir⟩
      · exact exists_dir_of_get?_append hnil hdir
    obtain ⟨rows', hrows'⟩ := hthere
    rw [List.cons_append, follow_of_dir hd.ne_dots (Nat.not_lt.2 hd.short) hrows', hassoc]
    rw [hassoc] at hdir
    exact ih hnames hdir

theorem follow_last {top : Entry} {here : List String} {x : String} (hx : x ≠ "..") :
    follow top here [x] =
      if Path.nameLimit < x.utf8ByteSize then .overlong else top.spot (here ++ [x]) := by
  split
  case isTrue hsize =>
    rw [follow.eq_def]
    simp [hsize]
  case isFalse hsize =>
    rw [follow.eq_def, spot]
    simp only [hsize, if_false]
    cases hget : top.get? (here ++ [x]) with
    | none => rfl
    | some e =>
      cases e with
      | file => rfl
      | dir rows =>
        dsimp only
        rw [follow, hget]

/-! ## The directory with the sources -/

/-- The directory below which sources are looked for is reached by the names `home`. Its path is a
relative one, as no other leads to an entry. -/
structure Home (files : Entry) (root : Path) (home : List String) (rows : List (String × Entry)) :
    Prop where
  proper : files.Proper
  hasZero_eq : root.hasZero = false
  place_eq : files.place root = .found home (.dir rows)

theorem exists_home {files : Entry} {root : Path} {rows : List (String × Entry)}
    (hproper : files.Proper) (hroot : files.at? root = .ok (some (.dir rows))) :
    ∃ home, files.Home root home rows := by
  have hzero := hasZero_of_at? hroot
  rw [at?, hzero] at hroot
  cases hplace : files.place root with
  | found home e =>
    rw [hplace] at hroot
    cases hroot
    exact ⟨home, hproper, hzero, hplace⟩
  | missing | lost | blocked | overlong =>
    rw [hplace] at hroot
    cases hroot

namespace Home

variable {files top : Entry} {root : Path} {home : List String} {rows : List (String × Entry)}
  (hhome : files.Home root home rows)
include hhome

theorem place_root (top : Entry) : top.place root = follow top [] root.parts :=
  place_eq_follow (by rw [hhome.place_eq]; exact Place.noConfusion)
    (by rw [hhome.place_eq]; exact Place.noConfusion) top

theorem follow_root : follow files [] root.parts = .found home (.dir rows) := by
  rw [← hhome.place_root files]
  exact hhome.place_eq

theorem relative : root.root = "" := by
  have hplace := hhome.place_eq
  rw [place] at hplace
  split at hplace
  case isTrue => cases hplace
  case isFalse =>
    split at hplace
    case isTrue hroot => exact beq_iff_eq.1 hroot
    case isFalse => cases hplace

theorem get?_home : files.get? home = some (.dir rows) := get?_of_follow hhome.follow_root

theorem isDir : files.isDir = true := isDir_of_get? hhome.get?_home

theorem get?_below (names : List String) :
    files.get? (home ++ names) = (Entry.dir rows).get? names := by
  rw [get?_append, hhome.get?_home, Option.bind_some]

/-- The directory is still found when directories are kept. -/
theorem keeps (htop : top.Proper) (hkeeps : files.Keeps top) :
    ∃ rows', top.Home root home rows' := by
  obtain ⟨rows', hrows'⟩ := hkeeps.follow_eq hhome.follow_root
  exact ⟨rows', htop, hhome.hasZero_eq, by rw [hhome.place_root, hrows']⟩

theorem at?_root : files.at? root = .ok (some (.dir rows)) := by
  rw [at?, hhome.hasZero_eq, hhome.place_eq]
  rfl

/-- A path that goes on through directories leads to an entry of the last of them. -/
theorem follow_down (hkeeps : files.Keeps top) {dirs : List String}
    {entries : List (String × Entry)} (hdir : files.get? (home ++ dirs) = some (.dir entries))
    {x : String} (hx : x ≠ "..") :
    follow top [] (root.down (dirs ++ [x])).parts =
      if Path.nameLimit < x.utf8ByteSize then .overlong else top.spot (home ++ (dirs ++ [x])) := by
  obtain ⟨rows', hrows'⟩ := hkeeps.follow_eq hhome.follow_root
  obtain ⟨entries', hdir'⟩ := seen_eq_dir.1 (hkeeps _ (seen_of_get? hdir))
  have hnames : ∀ d ∈ dirs, IsName d := fun d hd =>
    hhome.proper.isName_of_get? hdir d (List.mem_append_right home hd)
  rw [Path.down, follow_append hrows', follow_dirs hnames hdir', follow_last hx, List.append_assoc]

theorem sits_down {dirs : List String} {entries : List (String × Entry)}
    (hdir : files.get? (home ++ dirs) = some (.dir entries)) {x : String} (hx : x ≠ "..") :
    files.Sits (root.down (dirs ++ [x])) (home ++ (dirs ++ [x])) := by
  have hplace (top : Entry) : top.place (root.down (dirs ++ [x])) =
      if Path.pathLimit < (root.down (dirs ++ [x])).text.utf8ByteSize then .overlong
      else follow top [] (root.down (dirs ++ [x])).parts := by
    rw [place]
    split
    case isTrue => rfl
    case isFalse =>
      refine if_pos ?_
      rw [Path.down, hhome.relative]
      rfl
  by_cases hlong : Path.pathLimit < (root.down (dirs ++ [x])).text.utf8ByteSize
  · exact .far fun top _ => by rw [hplace, if_pos hlong]
  · by_cases hsize : Path.nameLimit < x.utf8ByteSize
    · exact .far fun top htop => by
        rw [hplace, if_neg hlong, hhome.follow_down htop hdir hx, if_pos hsize]
    · exact .near fun top htop => by
        rw [hplace, if_neg hlong, hhome.follow_down htop hdir hx, if_neg hsize]

end Home

end Entry

/-! ## Sources and their outputs -/

/-- The names by which a path below `root` leads to its cell. -/
def Path.cell (root : Path) (home : List String) (p : Path) : List String :=
  home ++ p.parts.drop root.parts.length

theorem Path.cell_down (root : Path) (home names : List String) :
    root.cell home (root.down names) = home ++ names := by
  rw [cell, down, List.drop_left]

theorem World.corePath_down (root : Path) (dirs : List String) (n : String) :
    corePath (root.down (dirs ++ [n])).parent (root.down (dirs ++ [n])) =
      root.down (dirs ++ [(root.down (dirs ++ [n])).stem ++ ".core"]) := by
  simp only [corePath, Path.parent, Path.child, Path.down, ← List.append_assoc,
    List.dropLast_concat]

theorem Path.name_down (root : Path) (dirs : List String) (n : String) :
    (root.down (dirs ++ [n])).name = n := by
  simp only [name, down, ← List.append_assoc, List.getLast?_concat, Option.getD_some]

theorem Sources.getLast?_of_wanted {room : Nat} {here : Path} {dirs : List String} {n : String}
    (h : wanted room here (dirs ++ [n]) = true) : n.toList.getLast? = some 'l' := by
  rw [wanted_concat, Bool.and_eq_true, Bool.and_eq_true] at h
  obtain ⟨t, ht⟩ := List.isSuffixOf_iff_suffix.1 h.2.1
  rw [← ht, List.getLast?_append]
  rfl

namespace Entry.Home

variable {files top : Entry} {root : Path} {home : List String} {rows : List (String × Entry)}
  (hhome : files.Home root home rows)
include hhome

theorem mem_sources {source : Path} :
    source ∈ (Sources.below root rows).sources ↔ ∃ dirs n bytes,
      source = root.down (dirs ++ [n]) ∧
        Sources.wanted (Sources.room root) root (dirs ++ [n]) = true ∧
        files.get? (home ++ (dirs ++ [n])) = some (.file bytes) := by
  rw [Sources.mem_below (hhome.proper.of_get? hhome.get?_home)]
  constructor
  · rintro ⟨names, bytes, rfl, hwanted, hget⟩
    rcases List.eq_nil_or_concat names with rfl | ⟨dirs, n, rfl⟩
    · cases hwanted
    · rw [List.concat_eq_append] at hwanted hget ⊢
      rw [← hhome.get?_below] at hget
      exact ⟨dirs, n, bytes, rfl, hwanted, hget⟩
  · rintro ⟨dirs, n, bytes, rfl, hwanted, hget⟩
    rw [hhome.get?_below] at hget
    exact ⟨dirs ++ [n], bytes, rfl, hwanted, hget⟩

end Entry.Home

/-- A source and its output, as two entries of one directory. -/
structure SourceSite (files : Entry) (root : Path) (home : List String) (source : Path) where
  dirs : List String
  (name output : String)
  entries : List (String × Entry)
  bytes : ByteArray
  source_eq : source = root.down (dirs ++ [name])
  core_eq : World.corePath source.parent source = root.down (dirs ++ [output])
  dir_eq : files.get? (home ++ dirs) = some (.dir entries)
  file_eq : files.get? (home ++ (dirs ++ [name])) = some (.file bytes)
  isName : ∀ d ∈ dirs ++ [name], IsName d
  no_slash : '/' ∉ output.toList
  last_name : name.toList.getLast? = some 'l'
  last_output : output.toList.getLast? = some 'e'

theorem Entry.Home.site {files : Entry} {root source : Path} {home : List String}
    {rows : List (String × Entry)} (hhome : files.Home root home rows)
    (hsource : source ∈ (Sources.below root rows).sources) :
    Nonempty (SourceSite files root home source) := by
  obtain ⟨dirs, name, bytes, rfl, hwanted, hfile⟩ := hhome.mem_sources.1 hsource
  have hnames : ∀ d ∈ dirs ++ [name], IsName d := fun d hd =>
    hhome.proper.isName_of_get? hfile d (List.mem_append_right home hd)
  have hdir := hfile
  rw [← List.append_assoc] at hdir
  obtain ⟨entries, hdir⟩ := exists_dir_of_get?_append (List.cons_ne_nil _ _) hdir
  refine ⟨⟨dirs, name, _, entries, bytes, rfl, World.corePath_down root dirs name, hdir, hfile,
    hnames, ?_, Sources.getLast?_of_wanted hwanted, ?_⟩⟩
  · intro hslash
    rw [String.toList_append, List.mem_append] at hslash
    rcases hslash with hslash | hslash
    · have hmem := Path.mem_stem hslash
      rw [Path.name_down] at hmem
      exact (hnames name (by simp)).no_slash hmem
    · revert hslash
      decide
  · rw [String.toList_append, List.getLast?_append]
    rfl

namespace SourceSite

variable {files : Entry} {root source source' : Path} {home : List String}
  {rows : List (String × Entry)} (site : SourceSite files root home source)
  (site' : SourceSite files root home source')

theorem output_ne_dots : site.output ≠ ".." := by
  intro h
  have hlast := site.last_output
  rw [h] at hlast
  revert hlast
  decide

theorem cell_source : root.cell home source = home ++ (site.dirs ++ [site.name]) :=
  (congrArg (root.cell home) site.source_eq).trans (Path.cell_down root home _)

theorem cell_core : root.cell home (World.corePath source.parent source) =
    home ++ (site.dirs ++ [site.output]) := by
  rw [site.core_eq, Path.cell_down]

include site

theorem sits (hhome : files.Home root home rows) :
    files.Sits (World.corePath source.parent source)
      (root.cell home (World.corePath source.parent source)) := by
  rw [site.cell_core, site.core_eq]
  exact hhome.sits_down site.dir_eq site.output_ne_dots

include site'

theorem source_of_cell (h : root.cell home source = root.cell home source') :
    source = source' := by
  rw [site.cell_source, site'.cell_source, List.append_cancel_left_eq] at h
  rw [site.source_eq, site'.source_eq, h]

theorem core_of_cell (h : root.cell home (World.corePath source.parent source) =
    root.cell home (World.corePath source'.parent source')) :
    World.corePath source.parent source = World.corePath source'.parent source' := by
  rw [site.cell_core, site'.cell_core, List.append_cancel_left_eq] at h
  rw [site.core_eq, site'.core_eq, h]

/-- No output is where a source is. -/
theorem cell_ne : root.cell home (World.corePath source.parent source) ≠ root.cell home source' := by
  rw [site.cell_core, site'.cell_source, Ne, List.append_cancel_left_eq]
  intro h
  have hname : site.output = site'.name := by
    have hlast := congrArg List.getLast? h
    simpa using hlast
  have hlast := site.last_output
  rw [hname, site'.last_name] at hlast
  revert hlast
  decide

theorem source_of_text (h : source.text = source'.text) : source = source' := by
  rw [site.source_eq, site'.source_eq] at h ⊢
  rw [Path.text_down_inj (by simp) (by simp) (fun d hd => (site.isName d hd).no_slash)
    (fun d hd => (site'.isName d hd).no_slash) h]

theorem core_of_text (h : (World.corePath source.parent source).text =
    (World.corePath source'.parent source').text) :
    World.corePath source.parent source = World.corePath source'.parent source' := by
  have hslash {source : Path} (site : SourceSite files root home source) :
      ∀ d ∈ site.dirs ++ [site.output], '/' ∉ d.toList := by
    intro d hd
    rcases List.mem_append.1 hd with hd | hd
    · exact (site.isName d (List.mem_append_left _ hd)).no_slash
    · rw [List.mem_singleton.1 hd]
      exact site.no_slash
  rw [site.core_eq, site'.core_eq] at h ⊢
  rw [Path.text_down_inj (by simp) (by simp) (hslash site) (hslash site') h]

end SourceSite

end CallGraph
