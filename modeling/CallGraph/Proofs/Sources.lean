import CallGraph.Proofs.Views
import CallGraph.Sources

/-!
Which sources are found below a directory, and in which order. The order in which directories list
their entries plays no part: trees with the same sources give the same list.
-/

namespace CallGraph

namespace Entry

/-- What can be the name of an entry of a directory. -/
structure IsName (n : String) : Prop where
  ne_empty : n ≠ ""
  ne_dot : n ≠ "."
  ne_dots : n ≠ ".."
  no_slash : '/' ∉ n.toList
  no_zero : '\x00' ∉ n.toList
  short : n.utf8ByteSize ≤ Path.nameLimit

instance (n : String) : Decidable (IsName n) :=
  decidable_of_iff (n ≠ "" ∧ n ≠ "." ∧ n ≠ ".." ∧ '/' ∉ n.toList ∧ '\x00' ∉ n.toList ∧
      n.utf8ByteSize ≤ Path.nameLimit)
    ⟨fun h => ⟨h.1, h.2.1, h.2.2.1, h.2.2.2.1, h.2.2.2.2.1, h.2.2.2.2.2⟩,
      fun h => ⟨h.ne_empty, h.ne_dot, h.ne_dots, h.no_slash, h.no_zero, h.short⟩⟩

/-- A tree as a system keeps it: each directory has each name at most once. -/
inductive Proper : Entry → Prop
  | file (bytes : ByteArray) : Proper (.file bytes)
  | dir {rows : List (String × Entry)} (hdistinct : (rows.map (·.1)).Nodup)
    (hnames : ∀ row ∈ rows, IsName row.1) (hrows : ∀ row ∈ rows, Proper row.2) : Proper (.dir rows)

theorem mem_of_lookup {rows : List (String × Entry)} {n : String} {e : Entry}
    (h : rows.lookup n = some e) : (n, e) ∈ rows := by
  induction rows with
  | nil => cases h
  | cons row rows ih =>
    obtain ⟨k, e'⟩ := row
    rw [lookup_cons_eq_ite] at h
    split at h
    case isTrue hn =>
      cases h
      rw [hn]
      exact List.mem_cons_self
    case isFalse => exact List.mem_cons_of_mem _ (ih h)

theorem lookup_of_mem {rows : List (String × Entry)} (hdistinct : (rows.map (·.1)).Nodup)
    {n : String} {e : Entry} (h : (n, e) ∈ rows) : rows.lookup n = some e := by
  induction rows with
  | nil => cases h
  | cons row rows ih =>
    obtain ⟨k, e'⟩ := row
    rw [List.map_cons, List.nodup_cons] at hdistinct
    rw [lookup_cons_eq_ite]
    rcases List.mem_cons.1 h with heq | hmem
    · cases heq
      rw [if_pos rfl]
    · have hn : n ≠ k := by
        rintro rfl
        exact hdistinct.1 (List.mem_map.2 ⟨(n, e), hmem, rfl⟩)
      rw [if_neg hn]
      exact ih hdistinct.2 hmem

theorem get?_append (top : Entry) (xs ys : List String) :
    top.get? (xs ++ ys) = (top.get? xs).bind (·.get? ys) := by
  induction xs generalizing top with
  | nil => cases ys <;> rfl
  | cons x xs ih =>
    cases top with
    | file => rfl
    | dir rows =>
      rw [List.cons_append, get?, get?, Option.bind_assoc]
      exact congrArg _ (funext fun e => ih e)

/-- All that is on the way to an entry are directories. -/
theorem exists_dir_of_get?_append {top e : Entry} {xs ys : List String} (hys : ys ≠ [])
    (h : top.get? (xs ++ ys) = some e) : ∃ rows, top.get? xs = some (.dir rows) := by
  rw [get?_append] at h
  obtain ⟨e', he', h⟩ := Option.bind_eq_some_iff.1 h
  cases e' with
  | dir rows => exact ⟨rows, he'⟩
  | file =>
    cases ys with
    | nil => exact absurd rfl hys
    | cons => cases h

namespace Proper

theorem of_get? {top e : Entry} {names : List String} (htop : top.Proper)
    (h : top.get? names = some e) : e.Proper := by
  induction htop generalizing names with
  | file bytes =>
    cases names with
    | nil =>
      cases h
      exact .file bytes
    | cons => cases h
  | dir hdistinct hnames hrows ih =>
    cases names with
    | nil =>
      cases h
      exact .dir hdistinct hnames hrows
    | cons n names =>
      obtain ⟨e', he', h⟩ := Option.bind_eq_some_iff.1 h
      exact ih (n, e') (mem_of_lookup he') h

theorem isName_of_get? {top e : Entry} {names : List String} (htop : top.Proper)
    (h : top.get? names = some e) : ∀ n ∈ names, IsName n := by
  induction htop generalizing names with
  | file bytes =>
    cases names with
    | nil => simp
    | cons => cases h
  | dir hdistinct hnames hrows ih =>
    cases names with
    | nil => simp
    | cons n names =>
      obtain ⟨e', he', h⟩ := Option.bind_eq_some_iff.1 h
      have hmem := mem_of_lookup he'
      exact List.forall_mem_cons.2 ⟨hnames _ hmem, ih (n, e') hmem h⟩

theorem erase {top : Entry} (htop : top.Proper) (names : List String) :
    (top.erase names).Proper := by
  fun_induction Entry.erase top names with
  | case1 => exact htop
  | case2 rows n =>
    cases htop with
    | dir hdistinct hnames hrows =>
      refine .dir (hdistinct.sublist (List.filter_sublist.map _)) ?_ ?_
      · exact fun row hrow => hnames row (List.mem_filter.1 hrow).1
      · exact fun row hrow => hrows row (List.mem_filter.1 hrow).1
  | case3 rows n names hne ih =>
    cases htop with
    | dir hdistinct hnames hrows =>
      have hrow (row : String × Entry) (hrow : row ∈ rows) :
          IsName (if row.1 == n then (n, row.2.erase names) else row).1 ∧
            Proper (if row.1 == n then (n, row.2.erase names) else row).2 := by
        split
        case isTrue hn => exact ⟨beq_iff_eq.1 hn ▸ hnames row hrow, ih row (hrows row hrow)⟩
        case isFalse => exact ⟨hnames row hrow, hrows row hrow⟩
      refine .dir ?_ (List.forall_mem_map.2 fun row h => (hrow row h).1)
        (List.forall_mem_map.2 fun row h => (hrow row h).2)
      have hkeys : (rows.map fun row => if row.1 == n then (n, row.2.erase names) else row).map
          (·.1) = rows.map (·.1) := by
        rw [List.map_map]
        refine List.map_congr_left fun row _ => ?_
        change (if row.1 == n then (n, row.2.erase names) else row).1 = row.1
        split
        case isTrue hn => exact (beq_iff_eq.1 hn).symm
        case isFalse => rfl
      rw [hkeys]
      exact hdistinct
  | case4 => exact htop

end Proper

/-- Files in the working directory, whose names can be names. -/
theorem proper_of_files (names : List String) (hdistinct : names.Nodup)
    (hnames : ∀ n ∈ names, IsName n) :
    (dir (names.map fun n => (n, .file .empty))).Proper := by
  refine .dir ?_ (List.forall_mem_map.2 hnames) (List.forall_mem_map.2 fun _ _ => .file _)
  rw [List.map_map]
  exact (List.map_id names).symm ▸ hdistinct

end Entry

/-- The path to which names lead on from `here`. -/
def Path.down (here : Path) (names : List String) : Path := ⟨here.root, here.parts ++ names⟩

theorem Path.down_child (here : Path) (n : String) (names : List String) :
    (here.child n).down names = here.down (n :: names) := by
  rw [child, down, down, List.append_assoc, List.singleton_append]

theorem Path.down_inj {here : Path} {as bs : List String} :
    here.down as = here.down bs ↔ as = bs := by
  simp [down]

namespace Sources

/-! ## What is found -/

/-- Names that lead on from `here` to a source if they lead to a file. -/
def wanted (room : Nat) : Path → List String → Bool
  | _, [] => false
  | _, [name] => isSourceName name && !isTestName name
  | here, dir :: name :: names =>
    isSearched room here dir && wanted room (here.child dir) (name :: names)

theorem wanted_cons {room : Nat} {here : Path} {n : String} {names : List String}
    (hnames : wanted room (here.child n) names = true) :
    wanted room here (n :: names) = isSearched room here n := by
  cases names with
  | nil => cases hnames
  | cons => rw [wanted, hnames, Bool.and_true]

/-- Directories, each in the one before, all of which are searched. -/
def allSearched (room : Nat) : Path → List String → Bool
  | _, [] => true
  | here, dir :: dirs => isSearched room here dir && allSearched room (here.child dir) dirs

theorem wanted_concat (room : Nat) (here : Path) (dirs : List String) (name : String) :
    wanted room here (dirs ++ [name]) =
      (allSearched room here dirs && (isSourceName name && !isTestName name)) := by
  induction dirs generalizing here with
  | nil => rfl
  | cons dir dirs ih =>
    have hcons : wanted room here (dir :: dirs ++ [name]) =
        (isSearched room here dir && wanted room (here.child dir) (dirs ++ [name])) := by
      cases dirs <;> rfl
    rw [hcons, ih, allSearched, Bool.and_assoc]

theorem sources_merge (files dirs : List (String × Found)) :
    (merge files dirs).sources = (inOrder files ++ inOrder dirs).flatMap (·.2.sources) := by
  rw [merge, Found.concat]
  induction inOrder files ++ inOrder dirs with
  | nil => rfl
  | cons row rows ih =>
    rw [List.flatMap_cons, ← ih]
    rfl

theorem mem_merge {files dirs : List (String × Found)} {p : Path} :
    p ∈ (merge files dirs).sources ↔
      (∃ row ∈ files, p ∈ row.2.sources) ∨ ∃ row ∈ dirs, p ∈ row.2.sources := by
  simp only [sources_merge, inOrder, List.mem_flatMap, List.mem_append, List.mem_mergeSort,
    or_and_right, exists_or]

theorem mem_ofFiles {here : Path} {rows : List (String × Entry)} {row : String × Found} :
    row ∈ ofFiles here rows ↔
      ∃ name bytes, (name, .file bytes) ∈ rows ∧ row = (name, ofFile here name) := by
  fun_induction ofFiles here rows with
  | case1 => simp
  | case2 name bytes rest ih =>
    rw [List.mem_cons, ih]
    constructor
    · rintro (rfl | ⟨name', bytes', hmem, h⟩)
      · exact ⟨name, bytes, List.mem_cons_self, rfl⟩
      · exact ⟨name', bytes', List.mem_cons_of_mem _ hmem, h⟩
    · rintro ⟨name', bytes', hmem, h⟩
      rcases List.mem_cons.1 hmem with heq | hmem
      · cases heq
        exact .inl h
      · exact .inr ⟨name', bytes', hmem, h⟩
  | case3 name entries rest ih => simp [ih]

theorem mem_ofDirs {room : Nat} {here : Path} {rows : List (String × Entry)}
    {row : String × Found} :
    row ∈ ofDirs room here rows ↔
      ∃ name entries, (name, .dir entries) ∈ rows ∧ isSearched room here name = true ∧
        row = (name, search room (here.child name) entries) := by
  induction rows with
  | nil => simp [ofDirs]
  | cons first rest ih =>
    rw [ofDirs, List.mem_append, ih]
    obtain ⟨name, bytes | entries⟩ := first
    · simp [ofRow, ofEntry]
    · rw [ofRow, ofEntry]
      cases hsearched : isSearched room here name with
      | false =>
        constructor
        · rintro (h | ⟨name', entries', hmem, h⟩)
          · cases h
          · exact ⟨name', entries', List.mem_cons_of_mem _ hmem, h⟩
        · rintro ⟨name', entries', hmem, hsearched', h⟩
          rcases List.mem_cons.1 hmem with heq | hmem
          · cases heq
            rw [hsearched] at hsearched'
            cases hsearched'
          · exact .inr ⟨name', entries', hmem, hsearched', h⟩
      | true =>
        constructor
        · rintro (h | ⟨name', entries', hmem, h⟩)
          · exact ⟨name, entries, List.mem_cons_self, hsearched, List.mem_singleton.1 h⟩
          · exact ⟨name', entries', List.mem_cons_of_mem _ hmem, h⟩
        · rintro ⟨name', entries', hmem, hsearched', h⟩
          rcases List.mem_cons.1 hmem with heq | hmem
          · cases heq
            exact .inl (List.mem_singleton.2 h)
          · exact .inr ⟨name', entries', hmem, hsearched', h⟩

theorem mem_ofFile (room : Nat) {here p : Path} {name : String} :
    p ∈ (ofFile here name).sources ↔ wanted room here [name] = true ∧ p = here.down [name] := by
  rw [ofFile, wanted]
  cases isSourceName name <;> cases isTestName name <;> simp [Found.none, Path.child, Path.down]

theorem mem_search {rows : List (String × Entry)} (hproper : (Entry.dir rows).Proper)
    {room : Nat} {here p : Path} :
    p ∈ (search room here rows).sources ↔ ∃ names bytes, p = here.down names ∧
      wanted room here names = true ∧ (Entry.dir rows).get? names = some (.file bytes) := by
  generalize htop : Entry.dir rows = top at hproper
  induction hproper generalizing rows here with
  | file => cases htop
  | @dir rows hdistinct hnames hrows ih =>
    cases htop
    rw [search, mem_merge]
    constructor
    · rintro (⟨_, hrow, hp⟩ | ⟨_, hrow, hp⟩)
      · obtain ⟨name, bytes, hmem, rfl⟩ := mem_ofFiles.1 hrow
        obtain ⟨hwanted, rfl⟩ := (mem_ofFile room).1 hp
        refine ⟨[name], bytes, rfl, hwanted, ?_⟩
        rw [Entry.get?, Entry.lookup_of_mem hdistinct hmem, Option.bind_some, Entry.get?]
      · obtain ⟨name, entries, hmem, hsearched, rfl⟩ := mem_ofDirs.1 hrow
        obtain ⟨names, bytes, rfl, hwanted, hget⟩ := (ih _ hmem rfl).1 hp
        refine ⟨name :: names, bytes, Path.down_child here name names, ?_, ?_⟩
        · rw [wanted_cons hwanted, hsearched]
        · rw [Entry.get?, Entry.lookup_of_mem hdistinct hmem]
          exact hget
    · rintro ⟨names, bytes, rfl, hwanted, hget⟩
      cases names with
      | nil => cases hget
      | cons name names =>
        obtain ⟨e, hlookup, hget⟩ := Option.bind_eq_some_iff.1 hget
        have hmem := Entry.mem_of_lookup hlookup
        cases names with
        | nil =>
          cases hget
          exact .inl ⟨_, mem_ofFiles.2 ⟨name, bytes, hmem, rfl⟩,
            (mem_ofFile room).2 ⟨hwanted, rfl⟩⟩
        | cons m names =>
          cases e with
          | file => cases hget
          | dir entries =>
            rw [wanted, Bool.and_eq_true] at hwanted
            refine .inr ⟨_, mem_ofDirs.2 ⟨name, entries, hmem, hwanted.1, rfl⟩, ?_⟩
            exact (ih _ hmem rfl).2
              ⟨m :: names, bytes, (Path.down_child here name _).symm, hwanted.2, hget⟩

/-- What is found are the files that are sources by their names. -/
theorem mem_below {rows : List (String × Entry)} (hproper : (Entry.dir rows).Proper)
    {root p : Path} :
    p ∈ (below root rows).sources ↔ ∃ names bytes, p = root.down names ∧
      wanted (room root) root names = true ∧ (Entry.dir rows).get? names = some (.file bytes) :=
  mem_search hproper

/-! ## How deep -/

/-- Names that lead on from `here` to a directory that is opened, if they lead to a directory. What
is in one that cannot be listed is not opened. -/
def opened (room : Nat) : Path → List String → Bool
  | _, [] => true
  | _, [name] => !skippedDirs.contains name
  | here, dir :: name :: names =>
    isSearched room here dir && opened room (here.child dir) (name :: names)

theorem rowsDepth_le_iff_forall {room limit : Nat} {here : Path} {rows : List (String × Entry)} :
    rowsDepth room here rows ≤ limit ↔
      ∀ row ∈ rows, entryDepth room here row.1 row.2 ≤ limit := by
  induction rows with
  | nil => simp [rowsDepth]
  | cons row rows ih => rw [rowsDepth, Nat.max_le, ih, List.forall_mem_cons, rowDepth]

theorem entryDepth_dir_le_iff {room limit : Nat} {here : Path} {name : String}
    {entries : List (String × Entry)} :
    entryDepth room here name (.dir entries) ≤ limit ↔ (skippedDirs.contains name = false →
      1 ≤ limit ∧ (isListed room (here.child name) = true →
        rowsDepth room (here.child name) entries + 1 ≤ limit)) := by
  rw [entryDepth]
  split
  case isTrue hskipped =>
    exact iff_of_true (Nat.zero_le _) fun hkept => absurd hskipped (Bool.eq_false_iff.1 hkept)
  case isFalse hkept =>
    rw [forall_prop_of_true (Bool.eq_false_iff.2 hkept)]
    split
    case isTrue hlisted =>
      rw [forall_prop_of_true hlisted, iff_and_self]
      exact Nat.le_trans (Nat.le_add_left 1 _)
    case isFalse hlisted => simp [hlisted]

/-- The depth is that of the directories that are opened. -/
theorem rowsDepth_le_iff {rows : List (String × Entry)} (hproper : (Entry.dir rows).Proper)
    {room limit : Nat} {here : Path} :
    rowsDepth room here rows ≤ limit ↔ ∀ names entries, opened room here names = true →
      (Entry.dir rows).get? names = some (.dir entries) → names.length ≤ limit := by
  generalize htop : Entry.dir rows = top at hproper
  induction hproper generalizing rows here limit with
  | file => cases htop
  | @dir rows hdistinct hnames hrows ih =>
    cases htop
    rw [rowsDepth_le_iff_forall]
    constructor
    · intro hdepth names entries hopened hget
      cases names with
      | nil => exact Nat.zero_le _
      | cons name names =>
        obtain ⟨e, hlookup, hget⟩ := Option.bind_eq_some_iff.1 hget
        have hmem := Entry.mem_of_lookup hlookup
        cases e with
        | file => cases names <;> cases hget
        | dir inner =>
          have hentry := entryDepth_dir_le_iff.1 (hdepth _ hmem)
          cases names with
          | nil =>
            rw [opened, Bool.not_eq_true'] at hopened
            exact (hentry hopened).1
          | cons m names =>
            rw [opened, isSearched, Bool.and_eq_true, Bool.and_eq_true, Bool.not_eq_true'] at hopened
            obtain ⟨⟨hkept, hlisted⟩, hopened⟩ := hopened
            obtain ⟨hone, hinner⟩ := hentry hkept
            obtain ⟨k, rfl⟩ := Nat.exists_eq_add_of_le' hone
            have hdepth := Nat.le_of_succ_le_succ (hinner hlisted)
            exact Nat.succ_le_succ ((ih _ hmem rfl).1 hdepth _ entries hopened hget)
    · rintro hlength ⟨name, e⟩ hmem
      have hlookup := Entry.lookup_of_mem hdistinct hmem
      cases e with
      | file => exact Nat.zero_le _
      | dir inner =>
        refine entryDepth_dir_le_iff.2 fun hkept => ?_
        have hfirst : opened room here [name] = true := by rw [opened, hkept, Bool.not_false]
        have hone : 1 ≤ limit := hlength [name] inner hfirst (by
          rw [Entry.get?, hlookup, Option.bind_some, Entry.get?])
        refine ⟨hone, fun hlisted => ?_⟩
        obtain ⟨k, rfl⟩ := Nat.exists_eq_add_of_le' hone
        refine Nat.succ_le_succ ((ih _ hmem rfl).2 fun names entries hopened hget => ?_)
        refine Nat.le_of_succ_le_succ (hlength (name :: names) entries ?_ ?_)
        · cases names with
          | nil => exact hfirst
          | cons m names =>
            rw [opened, hopened, isSearched, hlisted, hkept]
            rfl
        · rw [Entry.get?, hlookup]
          exact hget

/-- Files play no part in the depth. -/
theorem rowsDepth_le_of_dirs {rows rows' : List (String × Entry)}
    (hproper : (Entry.dir rows).Proper) (hproper' : (Entry.dir rows').Proper)
    (hdirs : ∀ names entries', (Entry.dir rows').get? names = some (.dir entries') →
      ∃ entries, (Entry.dir rows).get? names = some (.dir entries)) (room : Nat) (here : Path) :
    rowsDepth room here rows' ≤ rowsDepth room here rows := by
  refine (rowsDepth_le_iff hproper').2 fun names entries' hopened hget => ?_
  obtain ⟨entries, hget⟩ := hdirs names entries' hget
  exact (rowsDepth_le_iff hproper).1 (Nat.le_refl _) names entries hopened hget

/-! ## In which order -/

/-- The order of sources by the names that lead to them: where the ways part, a file comes before
what is in a directory, and otherwise the smaller name comes first. -/
inductive Ahead : List String → List String → Prop
  | files {a b : String} (h : a < b) : Ahead [a] [b]
  | fileDir {a b : String} {bs : List String} (hbs : bs ≠ []) : Ahead [a] (b :: bs)
  | dirs {a b : String} {as bs : List String} (h : a < b) (has : as ≠ []) (hbs : bs ≠ []) :
    Ahead (a :: as) (b :: bs)
  | within {a : String} {as bs : List String} (h : Ahead as bs) : Ahead (a :: as) (a :: bs)

namespace Ahead

theorem ne_nil {as bs : List String} (h : Ahead as bs) : as ≠ [] ∧ bs ≠ [] := by
  cases h <;> exact ⟨List.cons_ne_nil _ _, List.cons_ne_nil _ _⟩

theorem irrefl (as : List String) : ¬ Ahead as as := by
  induction as with
  | nil => exact fun h => h.ne_nil.1 rfl
  | cons a as ih =>
    intro h
    cases h with
    | files h | dirs h => exact String.lt_irrefl a h
    | fileDir hbs => exact hbs rfl
    | within h => exact ih h

theorem asymm {as bs : List String} (h : Ahead as bs) : ¬ Ahead bs as := by
  induction h with
  | files h =>
    intro h'
    cases h' with
    | files h' => exact String.lt_asymm h h'
    | fileDir hbs => exact hbs rfl
    | dirs _ has => exact has rfl
    | within h' => exact h'.ne_nil.1 rfl
  | fileDir hbs =>
    intro h'
    cases h' with
    | files | fileDir => exact hbs rfl
    | dirs _ _ hnil => exact hnil rfl
    | within h' => exact h'.ne_nil.2 rfl
  | dirs h has hbs =>
    intro h'
    cases h' with
    | files => exact has rfl
    | fileDir => exact hbs rfl
    | dirs h' => exact String.lt_asymm h h'
    | within => exact String.lt_irrefl _ h
  | within h ih =>
    intro h'
    cases h' with
    | files h' | dirs h' => exact String.lt_irrefl _ h'
    | fileDir => exact h.ne_nil.2 rfl
    | within h' => exact ih h'

end Ahead

/-- Of two paths below a directory the one comes ahead of the other. -/
def AheadBelow (here p q : Path) : Prop :=
  ∃ as bs, p = here.down as ∧ q = here.down bs ∧ Ahead as bs

theorem pairwise_inOrder {α : Type} {rows : List (String × α)}
    (hdistinct : (rows.map (·.1)).Nodup) : (inOrder rows).Pairwise fun a b => a.1 < b.1 := by
  have hkeys : ((inOrder rows).map (·.1)).Nodup :=
    ((List.mergeSort_perm rows _).map (·.1)).nodup_iff.2 hdistinct
  have hsorted : (inOrder rows).Pairwise fun a b => a.1 ≤ b.1 := by
    have htrans : ∀ a b c : String × α, decide (a.1 ≤ b.1) = true → decide (b.1 ≤ c.1) = true →
        decide (a.1 ≤ c.1) = true := by
      intro a b c hab hbc
      rw [decide_eq_true_eq] at hab hbc ⊢
      exact String.le_trans hab hbc
    have htotal : ∀ a b : String × α, (decide (a.1 ≤ b.1) || decide (b.1 ≤ a.1)) = true := by
      intro a b
      simpa using String.le_total a.1 b.1
    rw [inOrder]
    simpa using List.pairwise_mergeSort htrans htotal rows
  rw [List.nodup_iff_pairwise_ne, List.pairwise_map] at hkeys
  refine (hsorted.and hkeys).imp fun {a b} h => ?_
  apply String.not_le.1
  intro hba
  exact h.2 (String.le_antisymm h.1 hba)

theorem keys_ofFiles (here : Path) (rows : List (String × Entry)) :
    ((ofFiles here rows).map (·.1)).Sublist (rows.map (·.1)) := by
  fun_induction ofFiles here rows with
  | case1 => exact .slnil
  | case2 name bytes rest ih => exact ih.cons_cons name
  | case3 name entries rest ih => exact ih.cons name

theorem keys_ofDirs (room : Nat) (here : Path) (rows : List (String × Entry)) :
    ((ofDirs room here rows).map (·.1)).Sublist (rows.map (·.1)) := by
  induction rows with
  | nil => exact .slnil
  | cons row rest ih =>
    obtain ⟨name, bytes | entries⟩ := row
    · exact ih.cons name
    · rw [ofDirs, ofRow, ofEntry]
      split
      · exact ih.cons_cons name
      · exact ih.cons name

theorem pairwise_search {rows : List (String × Entry)} (hproper : (Entry.dir rows).Proper)
    (room : Nat) (here : Path) : (search room here rows).sources.Pairwise (AheadBelow here) := by
  generalize htop : Entry.dir rows = top at hproper
  induction hproper generalizing rows here with
  | file => cases htop
  | @dir rows hdistinct hnames hrows ih =>
    cases htop
    have hfiles := pairwise_inOrder (hdistinct.sublist (keys_ofFiles here rows))
    have hdirs := pairwise_inOrder (hdistinct.sublist (keys_ofDirs room here rows))
    have hfile {row : String × Found} (hrow : row ∈ inOrder (ofFiles here rows)) {p : Path}
        (hp : p ∈ row.2.sources) : p = here.down [row.1] := by
      obtain ⟨name, bytes, -, rfl⟩ := mem_ofFiles.1 (List.mem_mergeSort.1 hrow)
      exact ((mem_ofFile room).1 hp).2
    have hdir {row : String × Found} (hrow : row ∈ inOrder (ofDirs room here rows)) {p : Path}
        (hp : p ∈ row.2.sources) : ∃ names, p = here.down (row.1 :: names) ∧ names ≠ [] := by
      obtain ⟨name, entries, hmem, -, rfl⟩ := mem_ofDirs.1 (List.mem_mergeSort.1 hrow)
      obtain ⟨names, bytes, rfl, hwanted, -⟩ := (mem_search (hrows (name, .dir entries) hmem)).1 hp
      refine ⟨names, Path.down_child here name names, ?_⟩
      rintro rfl
      cases hwanted
    rw [search, sources_merge, List.pairwise_flatMap, List.pairwise_append]
    refine ⟨fun row hrow => ?_, ?_, ?_, ?_⟩
    · rcases List.mem_append.1 hrow with hrow | hrow
      · obtain ⟨name, bytes, -, rfl⟩ := mem_ofFiles.1 (List.mem_mergeSort.1 hrow)
        rw [ofFile]
        cases isSourceName name <;> cases isTestName name <;> simp [Found.none]
      · obtain ⟨name, entries, hmem, -, rfl⟩ := mem_ofDirs.1 (List.mem_mergeSort.1 hrow)
        refine (ih _ hmem (here.child name) rfl).imp ?_
        rintro p q ⟨as, bs, rfl, rfl, hahead⟩
        exact ⟨name :: as, name :: bs, Path.down_child here name as, Path.down_child here name bs,
          .within hahead⟩
    · refine hfiles.imp_of_mem fun {a b} ha hb hab p hp q hq => ?_
      exact ⟨[a.1], [b.1], hfile ha hp, hfile hb hq, .files hab⟩
    · refine hdirs.imp_of_mem fun {a b} ha hb hab p hp q hq => ?_
      obtain ⟨as, rfl, has⟩ := hdir ha hp
      obtain ⟨bs, rfl, hbs⟩ := hdir hb hq
      exact ⟨_, _, rfl, rfl, .dirs hab has hbs⟩
    · intro a ha b hb p hp q hq
      obtain ⟨bs, rfl, hbs⟩ := hdir hb hq
      exact ⟨[a.1], _, hfile ha hp, rfl, .fileDir hbs⟩

/-- The sources are found in order. -/
theorem pairwise_below {rows : List (String × Entry)} (hproper : (Entry.dir rows).Proper)
    (root : Path) : (below root rows).sources.Pairwise (AheadBelow root) :=
  pairwise_search hproper (room root) root

theorem nodup_of_aheadBelow {here : Path} {paths : List Path}
    (h : paths.Pairwise (AheadBelow here)) : paths.Nodup := by
  refine List.nodup_iff_pairwise_ne.2 (h.imp fun {p q} hpq => ?_)
  obtain ⟨as, bs, rfl, rfl, hahead⟩ := hpq
  intro heq
  rw [Path.down_inj] at heq
  subst heq
  exact hahead.irrefl

/-- In this order the same paths can be listed in one way only. -/
theorem eq_of_aheadBelow {here : Path} {ps qs : List Path} (hps : ps.Pairwise (AheadBelow here))
    (hqs : qs.Pairwise (AheadBelow here)) (hmem : ∀ p, p ∈ ps ↔ p ∈ qs) : ps = qs := by
  have hperm : ps.Perm qs :=
    (List.perm_ext_iff_of_nodup (nodup_of_aheadBelow hps) (nodup_of_aheadBelow hqs)).2 hmem
  refine hperm.eq_of_pairwise ?_ hps hqs
  rintro _ _ - - ⟨as, bs, rfl, rfl, hahead⟩ ⟨bs', as', hbs, has, hahead'⟩
  rw [Path.down_inj] at hbs has
  subst hbs has
  exact absurd hahead' hahead.asymm

/-- The sources in a directory without subdirectories. -/
theorem sources_below_files {here : Path} {names : List String} (hsorted : names.Pairwise (· ≤ ·))
    (hwanted : ∀ n ∈ names, wanted (room here) here [n] = true) (bytes : ByteArray) :
    (below here (names.map fun n => (n, .file bytes))).sources = names.map here.child := by
  have hfiles : ofFiles here (names.map fun n => (n, .file bytes)) =
      names.map fun n => (n, ⟨[here.child n], 0⟩) := by
    clear hsorted
    induction names with
    | nil => rfl
    | cons n names ih =>
      obtain ⟨hn, hnames⟩ := List.forall_mem_cons.1 hwanted
      rw [wanted, Bool.and_eq_true, Bool.not_eq_true'] at hn
      rw [List.map_cons, ofFiles, List.map_cons, ih hnames, ofFile, hn.1, hn.2]
      rfl
  have hdirs : ofDirs (room here) here (names.map fun n => (n, .file bytes)) = [] := by
    refine List.eq_nil_iff_forall_not_mem.2 fun row hrow => ?_
    obtain ⟨name, entries, hmem, -⟩ := mem_ofDirs.1 hrow
    obtain ⟨n, -, heq⟩ := List.mem_map.1 hmem
    cases heq
  have horder : inOrder (names.map fun n => (n, (⟨[here.child n], 0⟩ : Found))) =
      names.map fun n => (n, ⟨[here.child n], 0⟩) :=
    List.mergeSort_of_pairwise (List.pairwise_map.2 (hsorted.imp decide_eq_true))
  have hempty : inOrder ([] : List (String × Found)) = [] := List.mergeSort_nil
  rw [below, search, hfiles, hdirs, sources_merge, horder, hempty, List.append_nil, List.flatMap_map]
  exact List.map_eq_flatMap.symm

/-- When sources are taken away, the others are found as before. -/
theorem sources_below_filter {rows rows' : List (String × Entry)}
    (hproper : (Entry.dir rows).Proper) (hproper' : (Entry.dir rows').Proper) {here : Path}
    {keep : Path → Bool}
    (hkeep : ∀ names bytes, wanted (room here) here names = true →
      ((Entry.dir rows').get? names = some (.file bytes) ↔
        (Entry.dir rows).get? names = some (.file bytes) ∧ keep (here.down names) = true)) :
    (below here rows').sources = (below here rows).sources.filter keep := by
  refine eq_of_aheadBelow (pairwise_below hproper' here) ((pairwise_below hproper here).filter keep)
    fun p => ?_
  rw [List.mem_filter, mem_below hproper', mem_below hproper]
  constructor
  · rintro ⟨names, bytes, rfl, hwanted, hget⟩
    obtain ⟨hget, hkept⟩ := (hkeep names bytes hwanted).1 hget
    exact ⟨⟨names, bytes, rfl, hwanted, hget⟩, hkept⟩
  · rintro ⟨⟨names, bytes, rfl, hwanted, hget⟩, hkept⟩
    exact ⟨names, bytes, rfl, hwanted, (hkeep names bytes hwanted).2 ⟨hget, hkept⟩⟩

end Sources

end CallGraph
