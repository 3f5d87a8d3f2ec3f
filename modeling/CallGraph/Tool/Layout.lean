import CallGraph.Tool.Compiler

/-!
The layout tool, which draws an image of a graph. Its failures are logged and end nothing.
-/

namespace CallGraph

structure Layout where
  executable : String
  format : String
  timeout : Seconds

namespace Layout

def standard : Layout := ⟨"dot", "png", .whole 300⟩

def command (l : Layout) (graph image : String) : Command :=
  ⟨[l.executable, "-T" ++ l.format, graph, "-o", image], l.timeout⟩

/-- Draws the image, and gives the exit status unless the tool did not run to its end. -/
def draw (l : Layout) (graph image : String) : WorldM (Option Int) := do
  let command := l.command graph image
  World.log .debug ("Running dot: " ++ String.intercalate " " command.argv)
  match ← World.runLayout command with
  | .timedOut =>
    World.log .warning ("dot timed out after " ++ l.timeout.wholeText ++ "s on " ++ graph)
    return none
  | .missing =>
    World.log .warning (l.executable ++ " not found; image not rendered")
    return none
  | .denied => throw (.os .permissionDenied)
  | .garbled => throw (.conversion .notText)
  | .exited status _ errors =>
    if status != 0 then
      World.log .warning ("dot exited with " ++ toString status ++ ": "
        ++ lastChars outputLimit (errors.getD ""))
    return some status

def missing (l : Layout) (tools : Toolbox) : List String :=
  if tools.present.contains l.executable then []
  else [l.executable ++ " not found on PATH (install Graphviz)"]

end Layout

end CallGraph
