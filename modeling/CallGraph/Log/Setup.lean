import CallGraph.Log
import CallGraph.Log.Message

/-!
Setting up the log: from which level on records are kept, and how they are written.
-/

namespace CallGraph

namespace LogSetup

inductive Renderer where
  | console
  | json
deriving DecidableEq

structure Config where
  level : LogLevel
  renderer : Renderer
deriving DecidableEq

structure UnknownLevel where
  name : String
deriving DecidableEq

/-- The capital of a letter, as far as the names of levels go: two letters beyond ASCII have a
capital in it. -/
def capital (c : Char) : Char :=
  if c.toNat == 0x131 then 'I' else if c.toNat == 0x17F then 'S' else c.toUpper

/-- An argument that is there and not empty, else the setting, else the default. -/
def choose (argument setting : Option String) (default : String) : String :=
  match argument with
  | none | some "" => setting.getD default
  | some s => s

def configure (level format levelSetting formatSetting : Option String) :
    Except UnknownLevel Config :=
  let name := String.ofList ((choose level levelSetting "INFO").toList.map capital)
  let format := (choose format formatSetting "console").toLower
  match LogLevel.ofName? name with
  | none => .error ⟨name⟩
  | some level => .ok ⟨level, if format == "json" then .json else .console⟩

structure Entry where
  logger : String
  level : LogLevel
  event : Json
  fields : List (String × Json)

/-- A record of a message, none if the arguments do not go with the template. -/
def Entry.ofMessage? (logger : String) (level : LogLevel) (template : Json) (args : List Json) :
    Option Entry :=
  (Message.ofTemplate template.shown args).map fun message => ⟨logger, level, .text message, []⟩

/-- The name of a logger. The one without a name is the root of all. -/
def Entry.loggerName (e : Entry) : String := if e.logger == "" then "root" else e.logger

namespace Config

def keeps (c : Config) (level : LogLevel) : Bool := c.level.rank ≤ level.rank

/-- The names of fields that are not written as they are given: those that every record has, and
those that ask for a trace of the program. -/
def ownFields : List String := ["event", "level", "logger", "timestamp", "exc_info", "stack_info"]

/-- A record as an object, apart from its time. The fields that every record has come in place of
others of their names. -/
def line (e : Entry) : Json :=
  .object (e.fields.filter (fun f => !ownFields.contains f.1)
    ++ [("event", e.event), ("level", .text e.level.label), ("logger", .text e.loggerName)])

def kept (c : Config) (entries : List Entry) : List Entry :=
  entries.filter fun e => c.keeps e.level

def lines (c : Config) (entries : List Entry) : List Json := (c.kept entries).map line

/-- How many lines a record takes on a console: an event is shown with its line breaks. -/
def lineCount (e : Entry) : Nat := 1 + e.event.shown.toList.count '\n'

def consoleLines (c : Config) (entries : List Entry) : Nat :=
  ((c.kept entries).map lineCount).foldr (· + ·) 0

end Config

end LogSetup

end CallGraph
