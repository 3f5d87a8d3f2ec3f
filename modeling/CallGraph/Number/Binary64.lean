/-!
Binary floating-point numbers of 64 bits, computed exactly: every operation takes the exact result
and rounds it once, to the nearest number, a tie to the one with an even mantissa.
-/

namespace CallGraph

/-- A finite number is `mantissa * 2 ^ exponent` with a sign. The mantissa has 53 bits, or fewer if
the exponent is the least one, -1074. -/
inductive Binary64 where
  | finite (negative : Bool) (mantissa : Nat) (exponent : Int)
  | infinite (negative : Bool)
  | nan
deriving DecidableEq

/-- The quotient rounded to the nearest integer, a tie to the even one. -/
def roundedQuotient (num den : Nat) : Nat :=
  let q := num / den
  let r := num % den
  if 2 * r < den then q
  else if den < 2 * r then q + 1
  else if q % 2 == 0 then q
  else q + 1

namespace Binary64

def zero : Binary64 := .finite false 0 (-1074)

def scaled (num den : Nat) (e : Int) : Nat × Nat :=
  if 0 ≤ e then (num, den * Nat.pow 2 e.toNat) else (num * Nat.pow 2 (-e).toNat, den)

/-- The exponent with which the quotient has a mantissa of 53 bits, but at least -1074. -/
def exponentOf (num den : Nat) : Int :=
  let e : Int := (num.log2 : Int) - den.log2 - 53
  let (n, d) := scaled num den e
  max (if Nat.pow 2 53 ≤ n / d then e + 1 else e) (-1074)

/-- The number nearest to a quotient. -/
def ofRatio (negative : Bool) (num den : Nat) : Binary64 :=
  if num == 0 then .finite negative 0 (-1074)
  else
    let e := exponentOf num den
    let (n, d) := scaled num den e
    let m := roundedQuotient n d
    let (m, e) := if m == Nat.pow 2 53 then (Nat.pow 2 52, e + 1) else (m, e)
    if 971 < e then .infinite negative else .finite negative m e

/-- Numerator and denominator of a finite number without its sign. -/
def ratio (mantissa : Nat) (exponent : Int) : Nat × Nat :=
  if 0 ≤ exponent then (mantissa * Nat.pow 2 exponent.toNat, 1)
  else (mantissa, Nat.pow 2 (-exponent).toNat)

def isZero : Binary64 → Bool
  | .finite _ m _ => m == 0
  | _ => false

def neg : Binary64 → Binary64
  | .finite s m e => .finite (!s) m e
  | .infinite s => .infinite (!s)
  | .nan => .nan

def add : Binary64 → Binary64 → Binary64
  | .finite s m e, .finite s' m' e' =>
    let low := min e e'
    let term (s : Bool) (m : Nat) (e : Int) : Int :=
      let n : Int := (m * Nat.pow 2 (e - low).toNat : Nat)
      if s then -n else n
    let sum := term s m e + term s' m' e'
    if sum == 0 then .finite (s && s') 0 (-1074)
    else
      let (num, den) := ratio sum.natAbs low
      ofRatio (sum < 0) num den
  | .nan, _ => .nan
  | _, .nan => .nan
  | .infinite s, .infinite s' => if s == s' then .infinite s else .nan
  | .infinite s, .finite .. => .infinite s
  | .finite .., .infinite s => .infinite s

def sub (x y : Binary64) : Binary64 := x.add y.neg

/-- The number nearest to what is left when `x` is rounded to `places` decimal places, a tie to the
even last digit. -/
def roundPlaces (places : Nat) : Binary64 → Binary64
  | .finite s m e =>
    let (num, den) := ratio m e
    ofRatio s (roundedQuotient (num * Nat.pow 10 places) den) (Nat.pow 10 places)
  | x => x

/-- The number nearest to `mantissa * 10 ^ exponent`. Far beyond the range of the numbers the power
is not computed. -/
def ofDecimal (negative : Bool) (mantissa : Nat) (exponent : Int) : Binary64 :=
  let digits : Int := (Nat.toDigits 10 mantissa).length
  if mantissa == 0 || digits + exponent < -400 then .finite negative 0 (-1074)
  else if 400 < digits + exponent then .infinite negative
  else if 0 ≤ exponent then ofRatio negative (mantissa * Nat.pow 10 exponent.toNat) 1
  else ofRatio negative mantissa (Nat.pow 10 (-exponent).toNat)

end Binary64

end CallGraph
