import CallGraph.Proofs.Run.Units

/-!
What a search for sources returns, said of the tree alone: which files, each once, and which of two
comes first. The order in which directories list their entries plays no part. A directory whose path
is too long to be listed is passed over, so that what is in it is not found.
-/

namespace CallGraph

/-! ## Paths as a search writes them -/

namespace Path

/-- The path of what the names lead to, as a search from `root` writes it. -/
def walked (root : Path) (names : List String) : String :=
  root.text ++ String.join (names.map ("/" ++ ·))

end Path

namespace Sources

/-! ## Which files -/

/-- Each of the directories can be listed by a search from `root`. -/
def CanList (root : Path) (dirs : List String) : Prop :=
  ∀ ds, ds ≠ [] → ds <+: dirs → (root.walked ds).utf8ByteSize ≤ Path.pathLimit

/-- The names lead to a directory that a search from `root` opens: neither it nor a directory on the
way is left out, and those on the way can be listed. -/
structure IsOpenedDir (root : Path) (top : Entry) (dirs : List String) (name : String) : Prop where
  dir : ∃ entries, top.get? (dirs ++ [name]) = some (.dir entries)
  not_skipped : ∀ dir ∈ dirs ++ [name], dir ∉ [".git", ".svn", ".hg", "_build", ".rebar3"]
  listed : CanList root dirs

/-- A directory that a search from `root` opens lies in more directories than `limit`, with the root
among them. -/
def TooDeep (limit : Nat) (root : Path) (top : Entry) : Prop :=
  ∃ dirs name, IsOpenedDir root top dirs name ∧ limit ≤ dirs.length

theorem Ahead.append {as bs : List String} (h : Ahead as bs) (common : List String) :
    Ahead (common ++ as) (common ++ bs) := by
  induction common with
  | nil => exact h
  | cons c common ih => exact .within ih

end Sources

end CallGraph
