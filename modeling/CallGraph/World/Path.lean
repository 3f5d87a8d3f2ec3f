/-!
Paths. A path is written with slashes; empty components and single dots are dropped, double dots
are kept.
-/

namespace CallGraph

/-- A path from the working directory, or from a root if `root` is not empty. -/
structure Path where
  root : String
  parts : List String
deriving DecidableEq

namespace Path

def splitAtSlashes : List Char → List (List Char)
  | [] => [[]]
  | c :: cs =>
    match c == '/', splitAtSlashes cs with
    | true, pieces => [] :: pieces
    | false, piece :: pieces => (c :: piece) :: pieces
    | false, [] => [[c]]

def pieces (s : String) : List String := (splitAtSlashes s.toList).map String.ofList

/-- Two slashes in front are a root of their own, any other number is the usual one. -/
def rootOf : List Char → String
  | '/' :: '/' :: '/' :: _ => "/"
  | '/' :: '/' :: _ => "//"
  | '/' :: _ => "/"
  | _ => ""

def ofText (s : String) : Path :=
  ⟨rootOf s.toList, (pieces s).filter fun p => p != "" && p != "."⟩

/-- The path as it is written. The working directory is a dot. -/
def text (p : Path) : String :=
  if p.root == "" && p.parts.isEmpty then "." else p.root ++ String.intercalate "/" p.parts

def hasZero (p : Path) : Bool := p.parts.any (·.toList.contains '\x00')

/-- The greatest length of a name, in bytes. -/
def nameLimit : Nat := 255

/-- The greatest length of a path as it is written, in bytes. -/
def pathLimit : Nat := 4095

/-- The last component, empty if there is none. -/
def name (p : Path) : String := p.parts.getLast?.getD ""

def parent (p : Path) : Path := ⟨p.root, p.parts.dropLast⟩

def child (p : Path) (name : String) : Path := ⟨p.root, p.parts ++ [name]⟩

/-- The name without what follows its last dot. A dot that is the first or the last character does
not count. -/
def stem (p : Path) : String :=
  let cs := p.name.toList
  let suffix := cs.reverse.takeWhile (· != '.')
  let rest := (cs.reverse.drop (suffix.length + 1)).reverse
  if suffix.isEmpty || rest.isEmpty then p.name else String.ofList rest

end Path

end CallGraph
