/-!
Texts that are well formed and stand for no value that can be represented, and the limits of what
is computed.
-/

namespace CallGraph

inductive ConversionError where
  | beyondUnicode
  /-- The code of an escape does not even fit in a signed word of 32 bits. -/
  | beyondWord
  | longNumeral
  /-- A path has a character of code zero, which no name of a file can have. -/
  | zeroInPath
  | notText
deriving DecidableEq

/-- The character with a code. There is no character for the code of a surrogate, and the
replacement character stands for it: texts that have such an escape are outside of what is
modelled. -/
def charOfCode (n : Nat) : Except ConversionError Char :=
  if n ≤ 0x10FFFF then .ok (if 0xD800 ≤ n && n ≤ 0xDFFF then Char.ofNat 0xFFFD else Char.ofNat n)
  else if n ≤ 0x7FFFFFFF then .error .beyondUnicode
  else .error .beyondWord

def numeralLimit : Nat := 4300

/-- How many calls may be open at once. Those that are open already when a recursion begins are not
counted, so this is the limit up to a few calls. -/
def stackLimit : Nat := 1000

end CallGraph
