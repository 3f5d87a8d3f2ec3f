import CallGraph.World

/-!
The sources below a directory. The files of a directory come before those of its subdirectories,
both in the order of their names. Tests, and directories of tools, are left out. So are directories
whose path is too long for the system to list them. Directories that are nested too deeply end the
search.
-/

namespace CallGraph

namespace Sources

def endsIn (ending name : String) : Bool := ending.toList.isSuffixOf name.toList

def isTestName (name : String) : Bool := endsIn "tests.erl" name

def isTestFile (p : Path) : Bool := isTestName p.name

def isSourceName (name : String) : Bool := endsIn ".erl" name

def skippedDirs : List String := [".git", ".svn", ".hg", "_build", ".rebar3"]

/-- The greatest length of the path of a directory below `root` that can be listed, in bytes. Below
the working directory a dot and a slash are written in front of it. -/
def room (root : Path) : Nat :=
  if root.root == "" && root.parts.isEmpty then Path.pathLimit - 2 else Path.pathLimit

def isListed (room : Nat) (there : Path) : Bool := there.text.utf8ByteSize ≤ room

/-- Whether a subdirectory is searched: it is not left out by its name, and can be listed. -/
def isSearched (room : Nat) (here : Path) (name : String) : Bool :=
  !skippedDirs.contains name && isListed room (here.child name)

/-- The sources that were found, and the number of tests that were left out. -/
structure Found where
  sources : List Path
  tests : Nat

def Found.none : Found := ⟨[], 0⟩

def Found.append (a b : Found) : Found := ⟨a.sources ++ b.sources, a.tests + b.tests⟩

def Found.summary (f : Found) (root : Path) : String :=
  "Found " ++ toString f.sources.length ++ " source files under " ++ root.text ++ " ("
    ++ toString f.tests ++ " test files skipped)"

def Found.concat (found : List Found) : Found := found.foldr Found.append Found.none

def inOrder {α : Type} (rows : List (String × α)) : List (String × α) :=
  rows.mergeSort fun a b => a.1 ≤ b.1

/-- What is found in files and in subdirectories, put in order. -/
def merge (files dirs : List (String × Found)) : Found :=
  .concat ((inOrder files ++ inOrder dirs).map (·.2))

def ofFile (here : Path) (name : String) : Found :=
  if !isSourceName name then .none
  else if isTestName name then ⟨[], 1⟩
  else ⟨[here.child name], 0⟩

def ofFiles (here : Path) : List (String × Entry) → List (String × Found)
  | [] => []
  | (name, .file _) :: rest => (name, ofFile here name) :: ofFiles here rest
  | (_, .dir _) :: rest => ofFiles here rest

mutual

/-- What is found in an entry of a directory, if it is a directory that is searched. -/
def ofEntry (room : Nat) (here : Path) (name : String) : Entry → List (String × Found)
  | .file _ => []
  | .dir entries =>
    if isSearched room here name then
      let there := here.child name
      [(name, merge (ofFiles there entries) (ofDirs room there entries))]
    else []

def ofRow (room : Nat) (here : Path) : String × Entry → List (String × Found)
  | (name, entry) => ofEntry room here name entry

def ofDirs (room : Nat) (here : Path) : List (String × Entry) → List (String × Found)
  | [] => []
  | row :: rest => ofRow room here row ++ ofDirs room here rest

end

mutual

/-- How many directories are open at once while an entry is searched. One that cannot be listed is
opened all the same. -/
def entryDepth (room : Nat) (here : Path) (name : String) : Entry → Nat
  | .file _ => 0
  | .dir entries =>
    if skippedDirs.contains name then 0
    else if isListed room (here.child name) then rowsDepth room (here.child name) entries + 1
    else 1

def rowDepth (room : Nat) (here : Path) : String × Entry → Nat
  | (name, entry) => entryDepth room here name entry

def rowsDepth (room : Nat) (here : Path) : List (String × Entry) → Nat
  | [] => 0
  | row :: rest => max (rowDepth room here row) (rowsDepth room here rest)

end

/-- What is found in a directory with these entries, where paths up to `room` can be listed. -/
def search (room : Nat) (here : Path) (entries : List (String × Entry)) : Found :=
  merge (ofFiles here entries) (ofDirs room here entries)

def below (root : Path) (entries : List (String × Entry)) : Found := search (room root) root entries

/-- The sources below a directory. The search is by recursion, with at most `limit` directories
below the root open at once. -/
def discover (limit : Nat) (root : Path) : WorldM (List Path) := do
  match ← World.entry? root with
  | some (.dir entries) =>
    if limit < rowsDepth (room root) root entries then throw .tooDeep
    let found := below root entries
    World.log .info (found.summary root)
    return found.sources
  | _ => throw (.os (.noSourceRoot root.text))

end Sources

end CallGraph
