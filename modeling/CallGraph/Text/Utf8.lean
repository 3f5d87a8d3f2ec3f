/-!
Reading a file as text. Bytes are UTF-8; each part that cannot be continued to a character is
replaced by one replacement character. Line breaks of any kind become line feeds.
-/

namespace CallGraph.Text

def replacement : Char := Char.ofNat 0xFFFD

/-- A character of which some bytes are still to come: how many, the bits so far, and the least and
the greatest byte that may come next. -/
structure Unfinished where
  left : Nat
  bits : Nat
  least : Nat
  greatest : Nat

/-- What a byte at the start of a character is: a whole character, the first byte of one, or
neither. -/
inductive Lead where
  | whole (c : Char)
  | first (u : Unfinished)
  | stray

def lead (b : Nat) : Lead :=
  if b < 0x80 then .whole (Char.ofNat b)
  else if b < 0xC2 then .stray
  else if b < 0xE0 then .first ⟨1, b - 0xC0, 0x80, 0xBF⟩
  else if b < 0xF0 then
    .first ⟨2, b - 0xE0, if b == 0xE0 then 0xA0 else 0x80, if b == 0xED then 0x9F else 0xBF⟩
  else if b < 0xF5 then
    .first ⟨3, b - 0xF0, if b == 0xF0 then 0x90 else 0x80, if b == 0xF4 then 0x8F else 0xBF⟩
  else .stray

/-- The characters that are finished by one byte, and what is unfinished after it. -/
def decodeByte (pending : Option Unfinished) (b : Nat) : List Char × Option Unfinished :=
  let start : List Char × Option Unfinished :=
    match lead b with
    | .whole c => ([c], none)
    | .first u => ([], some u)
    | .stray => ([replacement], none)
  match pending with
  | none => start
  | some u =>
    if u.least ≤ b && b ≤ u.greatest then
      let bits := u.bits * 64 + b % 64
      if u.left ≤ 1 then ([Char.ofNat bits], none)
      else ([], some ⟨u.left - 1, bits, 0x80, 0xBF⟩)
    else (replacement :: start.1, start.2)

def decodeFrom (pending : Option Unfinished) : List UInt8 → List Char
  | [] => if pending.isSome then [replacement] else []
  | b :: bs =>
    let (cs, next) := decodeByte pending b.toNat
    cs ++ decodeFrom next bs

def decode (bytes : List UInt8) : List Char := decodeFrom none bytes

/-- A carriage return, with or without a line feed after it, becomes a line feed. -/
def unifyLines : List Char → List Char
  | [] => []
  | '\r' :: '\n' :: cs => '\n' :: unifyLines cs
  | c :: cs => (if c == '\r' then '\n' else c) :: unifyLines cs

def ofFile (bytes : ByteArray) : String :=
  String.ofList (unifyLines (decode bytes.data.toList))

end CallGraph.Text
