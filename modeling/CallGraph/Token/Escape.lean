import CallGraph.Conversion
import CallGraph.Text.Hexadecimal

/-!
Escapes: what may follow a backslash in a quoted atom, a string or a character. Main statement:
reading an escape takes its spelling from the front of the text, so the rest is shorter.
-/

namespace CallGraph

open Text

inductive Escape where
  /-- One to three octal digits. -/
  | octal (digits : List Char)
  | braced (digits : List Char)
  /-- Two hexadecimal digits. -/
  | pair (high low : Char)
  | control (c : Char)
  | single (c : Char)
deriving DecidableEq

namespace Escape

def spelling : Escape → List Char
  | .octal ds => ds
  | .braced ds => 'x' :: '{' :: ds ++ ['}']
  | .pair a b => ['x', a, b]
  | .control c => ['^', c]
  | .single c => [c]

/-- The escape after `x` and an open brace, `x` alone if the brace is not closed after digits. -/
def readBraced (cs : List Char) : Escape × List Char :=
  match cs.takeWhile isHex, cs.dropWhile isHex with
  | d :: ds, '}' :: rest => (.braced (d :: ds), rest)
  | _, _ => (.single 'x', '{' :: cs)

def readOther? : List Char → Option (Escape × List Char)
  | 'x' :: '{' :: cs => some (readBraced cs)
  | 'x' :: a :: b :: cs =>
    if isHex a && isHex b then some (.pair a b, cs) else some (.single 'x', a :: b :: cs)
  | '^' :: c :: cs => some (.control c, cs)
  | c :: cs => some (.single c, cs)
  | [] => none

/-- The octal digits at the front of the text, at most three. -/
def octalRun (cs : List Char) : List Char := (cs.take 3).takeWhile isOctal

def read? (cs : List Char) : Option (Escape × List Char) :=
  match octalRun cs with
  | [] => readOther? cs
  | d :: ds => some (.octal (d :: ds), cs.drop (ds.length + 1))

def named (c : Char) : Char :=
  match c with
  | 'b' => '\x08'
  | 'd' => '\x7f'
  | 'e' => '\x1b'
  | 'f' => '\x0c'
  | 'n' => '\n'
  | 'r' => '\r'
  | 's' => ' '
  | 't' => '\t'
  | 'v' => '\x0b'
  | c => c

def value : Escape → Except ConversionError Char
  | .octal ds => charOfCode (numberInBase 8 ds)
  | .braced ds => charOfCode (numberInBase 16 ds)
  | .pair a b => charOfCode (numberInBase 16 [a, b])
  | .control c => .ok (Char.ofNat (c.toNat % 32))
  | .single c => .ok (named c)

theorem readBraced_eq (cs : List Char) :
    'x' :: '{' :: cs = (readBraced cs).1.spelling ++ (readBraced cs).2 := by
  have hsplit := List.takeWhile_append_dropWhile (p := isHex) (l := cs)
  unfold readBraced
  split
  next d ds rest hds hrest =>
    rw [hds, hrest] at hsplit
    simp [spelling, ← hsplit]
  next => rfl

theorem readOther?_eq {cs rest : List Char} {e : Escape} (h : readOther? cs = some (e, rest)) :
    cs = e.spelling ++ rest := by
  unfold readOther? at h
  split at h
  next cs =>
    have hread := readBraced_eq cs
    rw [Option.some.inj h] at hread
    exact hread
  next => split at h <;> cases h <;> rfl
  next => cases h; rfl
  next => cases h; rfl
  next => cases h

theorem octalRun_append_drop (cs : List Char) :
    octalRun cs ++ cs.drop (octalRun cs).length = cs := by
  have htake : cs.take 3 <+: cs := List.take_prefix 3 cs
  have hwhile : octalRun cs <+: cs.take 3 := List.takeWhile_prefix _
  conv => lhs; lhs; rw [List.prefix_iff_eq_take.1 (hwhile.trans htake)]
  exact List.take_append_drop _ cs

/-- An escape is read from its spelling. -/
theorem read?_eq {cs rest : List Char} {e : Escape} (h : read? cs = some (e, rest)) :
    cs = e.spelling ++ rest := by
  unfold read? at h
  split at h
  next => exact readOther?_eq h
  next d ds hds =>
    cases h
    have := octalRun_append_drop cs
    rw [hds] at this
    exact this.symm

theorem spelling_ne_nil_of_read? {cs rest : List Char} {e : Escape}
    (h : read? cs = some (e, rest)) : e.spelling ≠ [] := by
  unfold read? at h
  split at h
  next => unfold readOther? readBraced at h; grind [spelling]
  next => cases h; simp [spelling]

theorem length_lt_of_read? {cs rest : List Char} {e : Escape} (h : read? cs = some (e, rest)) :
    rest.length < cs.length := by
  have hpos := List.length_pos_iff.2 (spelling_ne_nil_of_read? h)
  have hlength := congrArg List.length (read?_eq h)
  simp only [List.length_append] at hlength
  omega

end Escape

/-- The text that is meant by the characters between quotation marks. -/
def unescape : List Char → Except ConversionError (List Char)
  | [] => .ok []
  | c :: cs =>
    if c == '\\' then
      match h : Escape.read? cs with
      | some (e, rest) => do
        have := Escape.length_lt_of_read? h
        let x ← e.value
        let xs ← unescape rest
        return x :: xs
      | none => .ok [c]
    else do
      let xs ← unescape cs
      return c :: xs
termination_by cs => cs.length
decreasing_by
  · simp only [List.length_cons]; omega
  · simp

end CallGraph
