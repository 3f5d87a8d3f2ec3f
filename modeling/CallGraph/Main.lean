import CallGraph.CommandLine

/-!
The program. It loads the working directory, lets the command line act on it, and then does to the
directory what was done to the entries.

No process is started here. The compiler counts as having been run, so the files that it writes are
expected beside the sources, and there is no layout tool.
-/

namespace CallGraph

namespace Main

def tools : Toolbox where
  compiling _ := ⟨.exited 0 none none, none⟩
  layout := .missing
  present := [Compiler.standard.executable]

/-- Loads what a name in a directory stands for. Only files and directories are loaded, and not the
directories in which no source is looked for. -/
partial def load (e : IO.FS.DirEntry) : IO (Option Entry) := do
  match (← e.path.symlinkMetadata).type with
  | .file => return some (.file (← IO.FS.readBinFile e.path))
  | .dir =>
    if Sources.skippedDirs.contains e.fileName then return none
    else return some (.dir (← loadAll (← e.path.readDir).toList))
  | _ => return none
where
  loadAll (names : List IO.FS.DirEntry) : IO (List (String × Entry)) :=
    names.filterMapM fun e => do return (← load e).map (e.fileName, ·)

/-- Writes the files that are new or have changed, and takes away those that are gone. -/
def store (before after : Entry) : IO Unit := do
  for (path, bytes) in after.contents do
    if let some bytes := bytes then
      unless before.contents.lookup path == some (some bytes) do
        IO.FS.writeBinFile path bytes
  for (path, bytes) in before.contents do
    if bytes.isSome && (after.contents.lookup path).isNone then
      IO.FS.removeFile path

end Main

end CallGraph

open CallGraph in
def main (args : List String) : IO UInt32 := do
  let before := Entry.dir (← Main.load.loadAll (← (← IO.currentDir).readDir).toList)
  let (result, world) := CommandLine.execute args ⟨before, Main.tools, [], []⟩ (.ofList [])
  Main.store before world.files
  IO.print result.stdout
  IO.eprint result.stderr
  return result.exitCode.toUInt32
