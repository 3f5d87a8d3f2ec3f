import CallGraph.Conversion
import CallGraph.Text.Quoted
import CallGraph.World.Path

/-!
Files and directories, and what can go wrong with them.
-/

namespace CallGraph

inductive OsError where
  | noSuchFile (path : String)
  | isDirectory (path : String)
  | notDirectory (path : String)
  | fileExists (path : String)
  | nameTooLong (path : String)
  | permissionDenied
  | noSourceRoot (path : String)
deriving DecidableEq

def OsError.message : OsError → String
  | .noSuchFile path => "[Errno 2] No such file or directory: " ++ Text.quoted path
  | .isDirectory path => "[Errno 21] Is a directory: " ++ Text.quoted path
  | .notDirectory path => "[Errno 20] Not a directory: " ++ Text.quoted path
  | .fileExists path => "[Errno 17] File exists: " ++ Text.quoted path
  | .nameTooLong path => "[Errno 36] File name too long: " ++ Text.quoted path
  | .permissionDenied => "[Errno 13] Permission denied"
  | .noSourceRoot path => "Source root not found: " ++ path

inductive Fault where
  | os (e : OsError)
  | conversion (e : ConversionError)
  /-- More calls would have to be open at once than may be. -/
  | tooDeep
  | noRule (part : String)
deriving DecidableEq

/-- A file or a directory. A directory lists its entries in any order. -/
inductive Entry where
  | file (bytes : ByteArray)
  | dir (entries : List (String × Entry))

namespace Entry

def empty : Entry := .dir []

def isDir : Entry → Bool
  | .dir _ => true
  | .file _ => false

def bytes? : Entry → Option ByteArray
  | .file bytes => some bytes
  | .dir _ => none

def get? : Entry → List String → Option Entry
  | e, [] => some e
  | .dir entries, n :: ns => (entries.lookup n).bind (get? · ns)
  | .file _, _ :: _ => none

/-- The entries with the one of that name replaced, or with a new one. -/
def putEntry (entries : List (String × Entry)) (name : String) (e : Entry) :
    List (String × Entry) :=
  if (entries.lookup name).isSome then
    entries.map fun entry => if entry.1 == name then (name, e) else entry
  else entries ++ [(name, e)]

/-- Puts an entry at the end of the names. Nothing changes unless they lead through directories. -/
def put : Entry → List String → Entry → Entry
  | _, [], new => new
  | .dir entries, [n], new => .dir (putEntry entries n new)
  | .dir entries, n :: ns, new =>
    .dir (entries.map fun entry => if entry.1 == n then (n, put entry.2 ns new) else entry)
  | .file bytes, _ :: _, _ => .file bytes

def erase : Entry → List String → Entry
  | e, [] => e
  | .dir entries, [n] => .dir (entries.filter (·.1 != n))
  | .dir entries, n :: ns =>
    .dir (entries.map fun entry => if entry.1 == n then (n, erase entry.2 ns) else entry)
  | .file bytes, _ :: _ => .file bytes

def makeDirs : Entry → List String → Entry
  | e, [] => e
  | .file bytes, _ :: _ => .file bytes
  | .dir entries, n :: ns =>
    .dir (putEntry entries n (makeDirs ((entries.lookup n).getD empty) ns))

inductive Place where
  | found (names : List String) (e : Entry)
  /-- To a directory that has no entry of the last name. -/
  | missing (names : List String)
  /-- Through a name that is not there. -/
  | lost
  | blocked
  | overlong

/-- Follows the components of a path from the directory at `here`. -/
def follow (top : Entry) (here : List String) : List String → Place
  | [] =>
    match top.get? here with
    | some e => .found here e
    | none => .lost
  | ".." :: parts => follow top here.dropLast parts
  | p :: parts =>
    let there := here ++ [p]
    if Path.nameLimit < p.utf8ByteSize then .overlong
    else
      match top.get? there, parts with
      | some (.dir _), _ => follow top there parts
      | some (.file bytes), [] => .found there (.file bytes)
      | some (.file _), _ :: _ => .blocked
      | none, [] => .missing there
      | none, _ :: _ => .lost

/-- Where a path leads in the working directory `top`. Only relative paths are followed: of what an
absolute path leads to nothing is known, so that statements about the directory at a path are about
relative paths. -/
def place (top : Entry) (p : Path) : Place :=
  if Path.pathLimit < p.text.utf8ByteSize then .overlong
  else if p.root == "" then follow top [] p.parts
  else .lost

def at? (top : Entry) (p : Path) : Except OsError (Option Entry) :=
  if p.hasZero then .ok none
  else
    match top.place p with
    | .found _ e => .ok (some e)
    | .overlong => .error (.nameTooLong p.text)
    | .missing _ | .lost | .blocked => .ok none

/-- The entry to which a path leads as it is written, if there is one. One that ends in a slash or
a dot leads only to a directory. -/
def written? (top : Entry) (s : String) : Except ConversionError (Option Entry) :=
  let p := Path.ofText s
  if p.hasZero then .error .zeroInPath
  else if s == "" || Path.pathLimit < s.utf8ByteSize then .ok none
  else
    match top.place p, (Path.pieces s).getLast? with
    | .found _ (.file _), some "" | .found _ (.file _), some "." => .ok none
    | .found _ e, _ => .ok (some e)
    | _, _ => .ok none

/-- What is made of the place to which a path leads, unless there can be none. -/
def onPlace {α : Type} (top : Entry) (p : Path) (f : Place → Except OsError α) : Except Fault α :=
  if p.hasZero then .error (.conversion .zeroInPath) else (f (top.place p)).mapError .os

def read (top : Entry) (p : Path) : Except Fault ByteArray :=
  top.onPlace p fun
    | .found _ (.file bytes) => .ok bytes
    | .found _ (.dir _) => .error (.isDirectory p.text)
    | .missing _ | .lost => .error (.noSuchFile p.text)
    | .blocked => .error (.notDirectory p.text)
    | .overlong => .error (.nameTooLong p.text)

def write (top : Entry) (p : Path) (bytes : ByteArray) : Except Fault Entry :=
  top.onPlace p fun
    | .found names (.file _) | .missing names => .ok (top.put names (.file bytes))
    | .found _ (.dir _) => .error (.isDirectory p.text)
    | .lost => .error (.noSuchFile p.text)
    | .blocked => .error (.notDirectory p.text)
    | .overlong => .error (.nameTooLong p.text)

def makeDir (top : Entry) (p : Path) : Except Fault Entry :=
  top.onPlace p fun
    | .missing names => .ok (top.put names .empty)
    | .found _ (.dir _) => .ok top
    | .found _ (.file _) => .error (.fileExists p.text)
    | .lost => .error (.noSuchFile p.text)
    | .blocked => .error (.notDirectory p.text)
    | .overlong => .error (.nameTooLong p.text)

def remove (top : Entry) (p : Path) : Except Fault Entry :=
  top.onPlace p fun
    | .found names (.file _) => .ok (top.erase names)
    | .found _ (.dir _) => .error (.isDirectory p.text)
    | .missing _ | .lost => .error (.noSuchFile p.text)
    | .blocked => .error (.notDirectory p.text)
    | .overlong => .error (.nameTooLong p.text)

/-- The paths of all entries below `here`, each directory with a slash at its end, and the files'
bytes. -/
def listing (here : String) : List (String × Entry) → List (String × Option ByteArray)
  | [] => []
  | (name, .file bytes) :: rest => (here ++ name, some bytes) :: listing here rest
  | (name, .dir entries) :: rest =>
    (here ++ name ++ "/", none) :: listing (here ++ name ++ "/") entries ++ listing here rest

def contents : Entry → List (String × Option ByteArray)
  | .dir entries => (listing "" entries).mergeSort fun a b => a.1 ≤ b.1
  | .file _ => []

end Entry

end CallGraph
