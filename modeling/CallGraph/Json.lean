import CallGraph.Number.Shortest
import CallGraph.Text.Hexadecimal

/-!
JSON values and their text. The text is indented by two blanks a level and has ASCII characters
only; a character beyond the basic plane is written as two surrogates.
-/

namespace CallGraph

inductive Json where
  | null
  | bool (value : Bool)
  | integer (value : Int)
  | float (value : Binary64)
  | text (value : String)
  | array (items : List Json)
  | object (fields : List (String × Json))
deriving Inhabited

namespace Json

def ofOption {α : Type} (f : α → Json) : Option α → Json
  | some x => f x
  | none => .null

/-- The escape of one unit of UTF-16. -/
def escapedUnit (n : Nat) : List Char := '\\' :: 'u' :: Text.hexadecimal 4 n

def shownChar (c : Char) : List Char :=
  let n := c.toNat
  if c == '"' || c == '\\' then ['\\', c]
  else if 0x20 ≤ n && n ≤ 0x7E then [c]
  else if c == '\n' then ['\\', 'n']
  else if c == '\r' then ['\\', 'r']
  else if c == '\t' then ['\\', 't']
  else if n == 0x08 then ['\\', 'b']
  else if n == 0x0C then ['\\', 'f']
  else if n < 0x10000 then escapedUnit n
  else
    escapedUnit (0xD800 + (n - 0x10000) / 0x400) ++ escapedUnit (0xDC00 + (n - 0x10000) % 0x400)

def shownText (s : String) : String :=
  String.ofList ('"' :: s.toList.flatMap shownChar ++ ['"'])

def lineBreak (level : Nat) : String := String.ofList ('\n' :: List.replicate (2 * level) ' ')

/-- Rows between brackets, each on its own line. Without rows the brackets stand together. -/
def block (level : Nat) (opening closing : String) (rows : List String) : String :=
  if rows.isEmpty then opening ++ closing
  else
    opening ++ lineBreak (level + 1) ++ String.intercalate ("," ++ lineBreak (level + 1)) rows
      ++ lineBreak level ++ closing

mutual

def render (level : Nat) : Json → String
  | .null => "null"
  | .bool b => if b then "true" else "false"
  | .integer n => toString n
  | .float x => x.text
  | .text s => shownText s
  | .array items => block level "[" "]" (renderAll (level + 1) items)
  | .object fields => block level "\x7b" "\x7d" (renderFields (level + 1) fields)

def renderAll (level : Nat) : List Json → List String
  | [] => []
  | item :: items => render level item :: renderAll level items

def renderFields (level : Nat) : List (String × Json) → List String
  | [] => []
  | (key, value) :: fields =>
    (shownText key ++ ": " ++ render level value) :: renderFields level fields

end

end Json

end CallGraph
