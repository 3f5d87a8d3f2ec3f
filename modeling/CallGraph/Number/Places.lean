import CallGraph.Number.Shortest

/-!
Floating-point numbers with a given number of digits. The exact value is rounded once, a tie to the
even last digit.
-/

namespace CallGraph

inductive NumberStyle where
  | fixed
  | scientific
  /-- With so many digits, and an exponent if the number is small or needs more digits than
  these. -/
  | general
deriving DecidableEq

namespace Binary64

/-- The number with so many digits: its digits and the exponent of the first one. -/
def significant (count mantissa : Nat) (exponent : Int) : List Char × Int :=
  if mantissa == 0 then (List.replicate count '0', 0)
  else
    let (num, den) := ratio mantissa exponent
    let step := magnitude num den - count
    let (n, d) :=
      if 0 ≤ step then (num, den * Nat.pow 10 step.toNat) else (num * Nat.pow 10 (-step).toNat, den)
    let ds := Nat.toDigits 10 (roundedQuotient n d)
    -- a number that is rounded up to a power of ten has one digit more
    (ds.take count, step + ds.length - 1)

/-- The number with so many digits after the point: the digits before it and those after it. -/
def places (count mantissa : Nat) (exponent : Int) : List Char × List Char :=
  let (num, den) := ratio mantissa exponent
  let ds := Nat.toDigits 10 (roundedQuotient (num * Nat.pow 10 count) den)
  let ds := List.replicate (count + 1 - ds.length) '0' ++ ds
  (ds.take (ds.length - count), ds.drop (ds.length - count))

/-- Digits before and after a point. Without digits after it there is a point only if `full`. -/
def pointed (full : Bool) (whole fraction : List Char) : List Char :=
  if fraction.isEmpty && !full then whole else whole ++ '.' :: fraction

def withoutZeros (full : Bool) (ds : List Char) : List Char :=
  if full then ds else (ds.reverse.dropWhile (· == '0')).reverse

/-- A finite number without its sign. With `full`, zeros at the end and a point before no digits are
kept. -/
def laidOut (style : NumberStyle) (full : Bool) (count mantissa : Nat) (exponent : Int) :
    List Char :=
  match style with
  | .fixed =>
    let (whole, fraction) := places count mantissa exponent
    pointed full whole fraction
  | .scientific =>
    let (ds, e) := significant (count + 1) mantissa exponent
    pointed full (ds.take 1) (ds.drop 1) ++ NumberFormat.exponentPart e
  | .general =>
    let count := max count 1
    let (ds, e) := significant count mantissa exponent
    if e < -4 || count ≤ e then
      pointed full (ds.take 1) (withoutZeros full (ds.drop 1)) ++ NumberFormat.exponentPart e
    else if e < 0 then
      pointed full ['0'] (withoutZeros full (List.replicate (-e - 1).toNat '0' ++ ds))
    else pointed full (ds.take (e.toNat + 1)) (withoutZeros full (ds.drop (e.toNat + 1)))

def signedText (style : NumberStyle) (full : Bool) (count : Nat) : Binary64 → Bool × List Char
  | .finite s m e => (s, laidOut style full count m e)
  | .infinite s => (s, ['i', 'n', 'f'])
  | .nan => (false, ['n', 'a', 'n'])

def truncated? : Binary64 → Option Int
  | .finite s m e =>
    let (num, den) := ratio m e
    let n : Int := num / den
    some (if s then -n else n)
  | .infinite _ | .nan => none

/-- The number nearest to an integer, unless it is beyond all finite ones. -/
def ofInt? (n : Int) : Option Binary64 :=
  match ofRatio (n < 0) n.natAbs 1 with
  | .infinite _ => none
  | x => some x

end Binary64

end CallGraph
