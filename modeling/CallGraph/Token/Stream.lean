import CallGraph.Token.Lexeme

/-!
The tokens of a whole text.
-/

namespace CallGraph

inductive LexError where
  | unexpected (offset : Nat) (c : Char)
  | conversion (e : ConversionError)
deriving DecidableEq

namespace TokenStream

/-- The tokens of a text that stands at `offset`. The first fault in the text is the one reported. -/
def scan (offset : Nat) (cs : List Char) : Except LexError (List Token) :=
  match h : Lexeme.first? cs with
  | some (l, rest) => do
    have := Lexeme.length_lt_of_first? h
    let t ← (l.token? offset).mapError .conversion
    let ts ← scan (offset + l.spelling.length) rest
    return t.toList ++ ts
  | none =>
    match cs with
    | [] => .ok []
    | c :: _ => .error (.unexpected offset c)
termination_by cs.length

def ofText (cs : List Char) : Except LexError TokenStream := do
  let ts ← scan 0 cs
  return ⟨ts, cs.length⟩

/-- The position of a token of the text, or of the end of the text. -/
def position (text : List Char) (t : Option Token) : Position :=
  Position.ofOffset text ((t.map (·.offset)).getD text.length)

end TokenStream

end CallGraph
