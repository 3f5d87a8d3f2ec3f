/-!
Control sequences of terminals: an escape character, an opening bracket, parameters and a letter.
Text that is not written to a terminal is written without them.
-/

namespace CallGraph.Text

def isParameter (c : Char) : Bool := c.isDigit || c == ';' || c == '?'

def afterSequence? (cs : List Char) : Option (List Char) :=
  match cs.dropWhile isParameter with
  | c :: rest => if c.isAlpha then some rest else none
  | [] => none

theorem length_lt_of_afterSequence? {cs rest : List Char} (h : afterSequence? cs = some rest) :
    rest.length < cs.length := by
  have hle : (cs.dropWhile isParameter).length ≤ cs.length :=
    (List.dropWhile_sublist _).length_le
  unfold afterSequence? at h
  split at h
  next c rest' heq =>
    rw [heq, List.length_cons] at hle
    split at h
    · cases h; omega
    · cases h
  next => cases h

/-- The text without its control sequences. What is left is not looked at again. -/
def withoutSequences : List Char → List Char
  | [] => []
  | [c] => [c]
  | a :: b :: cs =>
    if a == '\x1b' && b == '[' then
      match h : afterSequence? cs with
      | some rest =>
        have := length_lt_of_afterSequence? h
        withoutSequences rest
      | none => a :: withoutSequences (b :: cs)
    else a :: withoutSequences (b :: cs)
termination_by cs => cs.length
decreasing_by all_goals simp only [List.length_cons]; omega

def unstyled (s : String) : String := String.ofList (withoutSequences s.toList)

end CallGraph.Text
