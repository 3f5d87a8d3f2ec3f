import CallGraph.Text.Printable
import CallGraph.Text.Hexadecimal

/-!
Quoted texts, as messages and descriptions show them. A quoted text stands on one line: line breaks
and everything that is not printable are escaped.
-/

namespace CallGraph.Text

/-- Apostrophes are around the text, unless it has one and has no double quote. -/
def quoteMark (cs : List Char) : Char :=
  if cs.contains '\'' && !cs.contains '"' then '"' else '\''

def shownBetween (mark c : Char) : List Char :=
  let n := c.toNat
  if c == mark || c == '\\' then ['\\', c]
  else if c == '\n' then ['\\', 'n']
  else if c == '\r' then ['\\', 'r']
  else if c == '\t' then ['\\', 't']
  else if isPrintable c then [c]
  else if n < 0x100 then '\\' :: 'x' :: hexadecimal 2 n
  else if n < 0x10000 then '\\' :: 'u' :: hexadecimal 4 n
  else '\\' :: 'U' :: hexadecimal 8 n

def quoted (s : String) : String :=
  let cs := s.toList
  let mark := quoteMark cs
  String.ofList (mark :: cs.flatMap (shownBetween mark) ++ [mark])

end CallGraph.Text
