import CallGraph.Conversion
import CallGraph.Core.Const
import CallGraph.Text.DecimalDigit
import CallGraph.Token

/-!
The values of numerals and of literal tokens.
-/

namespace CallGraph

open Text

namespace Numeral

/-- Whether the numeral is negative, and its characters without the sign. -/
def sign : List Char → Bool × List Char
  | '-' :: cs => (true, cs)
  | '+' :: cs => (false, cs)
  | cs => (false, cs)

def integerValue (cs : List Char) : Int :=
  let n : Int := numberOfDigits (sign cs).2
  if (sign cs).1 then -n else n

/-- The integer of a numeral, unless it has more than `limit` digits. Zeros in front count as
digits. -/
def integer (limit : Nat) (s : String) : Except ConversionError Int :=
  if limit < (sign s.toList).2.length then .error .longNumeral
  else .ok (integerValue s.toList)

/-- The number nearest to a numeral with a point and perhaps an exponent. -/
def float (s : String) : Binary64 :=
  let (negative, cs) := sign s.toList
  let whole := cs.takeWhile isDigit
  let afterPoint := (cs.dropWhile isDigit).drop 1
  let fraction := afterPoint.takeWhile isDigit
  let exponent := integerValue ((afterPoint.dropWhile isDigit).drop 1)
  Binary64.ofDecimal negative (numberOfDigits (whole ++ fraction)) (exponent - fraction.length)

end Numeral

/-- The literal that a token is, none for a token of another kind. Integers have at most `limit`
digits. -/
def Token.literal? (limit : Nat) (t : Token) : Option (Except ConversionError Literal) :=
  match t.kind with
  | .atom => some (.ok (.atom t.text))
  | .integer => some ((Numeral.integer limit t.text).map .integer)
  | .float => some (.ok (.float (Numeral.float t.text)))
  | .char => some (.ok (.char t.text))
  | .string => some (.ok (.string t.text))
  | .var | .name | .punct => none

end CallGraph
