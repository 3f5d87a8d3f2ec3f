import CallGraph.Number.Binary64

/-!
The text of a floating-point number: the fewest decimal digits that are read back as the number,
and among these the nearest to it.
-/

namespace CallGraph

/-- The positive number `digits * 10 ^ exponent`. -/
structure Decimal where
  digits : Nat
  exponent : Int
deriving DecidableEq

namespace Decimal

/-- The same number without zeros at the end of its digits. At most `fuel` of them are taken. -/
def trimZeros : Nat → Decimal → Decimal
  | 0, d => d
  | fuel + 1, d =>
    if d.digits != 0 && d.digits % 10 == 0 then trimZeros fuel ⟨d.digits / 10, d.exponent + 1⟩
    else d

end Decimal

namespace Binary64

/-- The number of decimal digits in front of the point of `num / den`, negative for zeros after
it: the `p` with `10 ^ (p - 1) ≤ num / den < 10 ^ p`. -/
def magnitude (num den : Nat) : Int :=
  if den ≤ num then (Nat.toDigits 10 (num / den)).length
  else 1 - (Nat.toDigits 10 ((den - 1) / num)).length

/-- The reals that are rounded to a finite number, in quarters of the unit of its mantissa: the
least and the greatest, and whether these two belong to it. -/
structure Basin where
  least : Nat
  greatest : Nat
  closed : Bool

def basin (mantissa : Nat) (exponent : Int) : Basin :=
  let narrow := mantissa == Nat.pow 2 52 && -1074 < exponent
  ⟨4 * mantissa - (if narrow then 1 else 2), 4 * mantissa + 2, mantissa % 2 == 0⟩

def Basin.contains (b : Basin) (num den : Nat) : Bool :=
  if b.closed then b.least * den ≤ num && num ≤ b.greatest * den
  else b.least * den < num && num < b.greatest * den

/-- The decimal of `count` digits that is read back as the number, if there is one: of its two
neighbours the nearer, in a tie the even one. -/
def decimalOf? (mantissa : Nat) (exponent : Int) (count : Nat) : Option Decimal :=
  let (num, den) := ratio mantissa exponent
  let (unitNum, unitDen) := ratio 1 (exponent - 2)
  let step := magnitude num den - count
  -- the number in steps of `10 ^ step`
  let (n, d) :=
    if 0 ≤ step then (num, den * Nat.pow 10 step.toNat) else (num * Nat.pow 10 (-step).toNat, den)
  let below := n / d
  let hit (k : Nat) : Bool :=
    let (kNum, kDen) :=
      if 0 ≤ step then (k * Nat.pow 10 step.toNat, 1) else (k, Nat.pow 10 (-step).toNat)
    (basin mantissa exponent).contains (kNum * unitDen) (kDen * unitNum)
  let choice :=
    match hit below, hit (below + 1) with
    | true, true => some (roundedQuotient n d)
    | true, false => some below
    | false, true => some (below + 1)
    | false, false => none
  choice.map fun k => Decimal.trimZeros (count + 1) ⟨k, step⟩

/-- The shortest decimal that is read back as the number. Seventeen digits are always enough. -/
def shortest (mantissa : Nat) (exponent : Int) : Decimal :=
  ((List.range 17).findSome? fun i => decimalOf? mantissa exponent (i + 1)).getD ⟨mantissa, exponent⟩

end Binary64

/-- How decimals are written: positional if the exponent of the first digit is from `least` to
`greatest`, otherwise with an exponent of at least two digits and a sign. -/
structure NumberFormat where
  least : Int
  greatest : Int

namespace NumberFormat

def exponentPart (e : Int) : List Char :=
  let ds := Nat.toDigits 10 e.natAbs
  'e' :: (if e < 0 then '-' else '+') :: (List.replicate (2 - ds.length) '0' ++ ds)

def write (f : NumberFormat) (d : Decimal) : String :=
  let ds := Nat.toDigits 10 d.digits
  let point : Int := ds.length + d.exponent
  let e := point - 1
  let zeros (n : Int) : List Char := List.replicate n.toNat '0'
  String.ofList <|
    if f.least ≤ e && e ≤ f.greatest then
      if point ≤ 0 then '0' :: '.' :: (zeros (-point) ++ ds)
      else if ds.length ≤ point.toNat then ds ++ zeros (point - ds.length) ++ ['.', '0']
      else ds.take point.toNat ++ '.' :: ds.drop point.toNat
    else
      let body := if ds.length ≤ 1 then ds else ds.take 1 ++ '.' :: ds.drop 1
      body ++ exponentPart e

end NumberFormat

def Binary64.format : NumberFormat := ⟨-4, 15⟩

def Binary64.text : Binary64 → String
  | .finite s m e =>
    let body := if m == 0 then "0.0" else Binary64.format.write (Binary64.shortest m e)
    if s then "-" ++ body else body
  | .infinite s => if s then "-inf" else "inf"
  | .nan => "nan"

end CallGraph
