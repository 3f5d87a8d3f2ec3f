import CallGraph.Conversion
import CallGraph.Json
import CallGraph.Number.Places
import CallGraph.Text.Quoted

/-!
Messages from a template and arguments. A percent sign starts a directive, which stands for the next
argument: flags, a width, a precision and a letter that says how the argument is shown. A directive
may name a field instead, if the only argument is an object. Two percent signs stand for one.
-/

namespace CallGraph

namespace Json

mutual

def literal : Json → String
  | .null => "None"
  | .bool b => if b then "True" else "False"
  | .integer n => toString n
  | .float x => x.text
  | .text s => Text.quoted s
  | .array items => "[" ++ String.intercalate ", " (literals items) ++ "]"
  | .object fields => "\x7b" ++ String.intercalate ", " (fieldLiterals fields) ++ "\x7d"

def literals : List Json → List String
  | [] => []
  | item :: items => item.literal :: literals items

def fieldLiterals : List (String × Json) → List String
  | [] => []
  | (key, value) :: fields => (Text.quoted key ++ ": " ++ value.literal) :: fieldLiterals fields

end

def shown : Json → String
  | .text s => s
  | value => value.literal

/-- The integer that a value is. The two truth values are one and zero. -/
def integer? : Json → Option Int
  | .integer n => some n
  | .bool b => some (if b then 1 else 0)
  | _ => none

/-- The integer that a value is or is cut down to. -/
def wholeNumber? : Json → Option Int
  | .float x => x.truncated?
  | value => value.integer?

def number? : Json → Option Binary64
  | .float x => some x
  | value => value.integer?.bind Binary64.ofInt?

/-- The character that a value is, or that has the value as its code. -/
def char? : Json → Option Char
  | .text s =>
    match s.toList with
    | [c] => some c
    | _ => none
  | value =>
    match value.integer? with
    | some (.ofNat n) => (charOfCode n).toOption
    | _ => none

end Json

namespace Message

/-- A width or a precision: given in the directive, or as an argument of its own. -/
inductive Amount where
  | number (n : Nat)
  | argument
deriving DecidableEq

structure Directive where
  key : Option String
  left : Bool
  plus : Bool
  blank : Bool
  full : Bool
  zeros : Bool
  width : Option Amount
  precision : Option Amount
  letter : Char
deriving DecidableEq

inductive Piece where
  | char (c : Char)
  | directive (d : Directive)
deriving DecidableEq

/-! ## Reading templates -/

/-- What stands before the parenthesis that closes the one before it, and what stands after it. -/
def untilClosed : Nat → List Char → Option (List Char × List Char)
  | _, [] => none
  | 0, ')' :: cs => some ([], cs)
  | depth + 1, ')' :: cs => (untilClosed depth cs).map fun r => (')' :: r.1, r.2)
  | depth, '(' :: cs => (untilClosed (depth + 1) cs).map fun r => ('(' :: r.1, r.2)
  | depth, c :: cs => (untilClosed depth cs).map fun r => (c :: r.1, r.2)

def readKey : List Char → Option (Option String × List Char)
  | '(' :: cs => (untilClosed 0 cs).map fun r => (some (String.ofList r.1), r.2)
  | cs => some (none, cs)

def isFlag (c : Char) : Bool := ['-', '+', ' ', '#', '0'].contains c

def readAmount : List Char → Option Amount × List Char
  | '*' :: cs => (some .argument, cs)
  | cs =>
    match cs.takeWhile Char.isDigit with
    | [] => (none, cs)
    | ds => (some (.number (Text.numberInBase 10 ds)), cs.dropWhile Char.isDigit)

/-- The precision at the front. A point alone is a precision of zero. -/
def readPrecision : List Char → Option Amount × List Char
  | '.' :: cs =>
    match readAmount cs with
    | (none, rest) => (some (.number 0), rest)
    | amount => amount
  | cs => (none, cs)

/-- Drops a letter for the size of a number, which means nothing here. -/
def dropSize : List Char → List Char
  | c :: cs => if ['h', 'l', 'L'].contains c then cs else c :: cs
  | [] => []

def readDirective (cs : List Char) : Option (Directive × List Char) := do
  let (key, cs) ← readKey cs
  let flags := cs.takeWhile isFlag
  let (width, cs) := readAmount (cs.dropWhile isFlag)
  let (precision, cs) := readPrecision cs
  match dropSize cs with
  | [] => none
  | letter :: rest =>
    return ({
      key, width, precision, letter
      left := flags.contains '-'
      plus := flags.contains '+'
      blank := flags.contains ' '
      full := flags.contains '#'
      zeros := flags.contains '0' }, rest)

/-- The pieces of a template, none if a directive is cut off. Each piece takes a character, so that
`fuel` for each character is enough. -/
def pieces (fuel : Nat) (cs : List Char) : Option (List Piece) :=
  match fuel, cs with
  | _, [] => some []
  | 0, _ :: _ => none
  | fuel + 1, '%' :: '%' :: cs => (pieces fuel cs).map (.char '%' :: ·)
  | fuel + 1, '%' :: cs => do
    let (d, rest) ← readDirective cs
    return .directive d :: (← pieces fuel rest)
  | fuel + 1, c :: cs => (pieces fuel cs).map (.char c :: ·)

/-! ## Fields -/

def spaces (n : Nat) : List Char := List.replicate n ' '

def inField (d : Directive) (width : Nat) (cs : List Char) : List Char :=
  if d.left then cs ++ spaces (width - cs.length) else spaces (width - cs.length) ++ cs

/-- A number in a field of some width: its sign, the mark of its base and its digits. Zeros come
after the sign and the mark. -/
def numberInField (d : Directive) (width : Nat) (negative : Bool) (mark digits : List Char) :
    List Char :=
  let sign := if negative then ['-'] else if d.plus then ['+'] else if d.blank then [' '] else []
  let front := sign ++ mark
  if d.zeros && !d.left then
    front ++ List.replicate (width - front.length - digits.length) '0' ++ digits
  else inField d width (front ++ digits)

def inAscii (s : String) : List Char :=
  s.toList.flatMap fun c =>
    let n := c.toNat
    if n < 0x80 then [c]
    else if n < 0x100 then '\\' :: 'x' :: Text.hexadecimal 2 n
    else if n < 0x10000 then '\\' :: 'u' :: Text.hexadecimal 4 n
    else '\\' :: 'U' :: Text.hexadecimal 8 n

def textField (d : Directive) (width : Nat) (precision : Option Nat) (cs : List Char) : List Char :=
  inField d width (cs.take (precision.getD cs.length))

/-- An integer in a base. The precision is the least number of digits. -/
def integerField (d : Directive) (width : Nat) (precision : Option Nat) (base : Nat)
    (mark : List Char) (n : Int) : List Char :=
  let ds := Nat.toDigits base n.natAbs
  numberInField d width (n < 0) mark (List.replicate (precision.getD 0 - ds.length) '0' ++ ds)

def realField (d : Directive) (width : Nat) (precision : Option Nat) (style : NumberStyle)
    (x : Binary64) : List Char :=
  let (negative, body) := x.signedText style d.full (precision.getD 6)
  numberInField d width negative [] (if d.letter.isUpper then body.map Char.toUpper else body)

def field (d : Directive) (width : Nat) (precision : Option Nat) (value : Json) :
    Option (List Char) :=
  let integer (base : Nat) (mark : List Char) : Option (List Char) :=
    value.integer?.map (integerField d width precision base (if d.full then mark else []))
  let real (style : NumberStyle) : Option (List Char) :=
    value.number?.map (realField d width precision style)
  match d.letter with
  | 's' => some (textField d width precision value.shown.toList)
  | 'r' => some (textField d width precision value.literal.toList)
  | 'a' => some (textField d width precision (inAscii value.literal))
  | 'c' => value.char?.map fun c => inField d width [c]
  | 'd' | 'i' | 'u' => value.wholeNumber?.map (integerField d width precision 10 [])
  | 'o' => integer 8 ['0', 'o']
  | 'x' => integer 16 ['0', 'x']
  | 'X' => (integer 16 ['0', 'X']).map (·.map Char.toUpper)
  | 'e' | 'E' => real .scientific
  | 'f' | 'F' => real .fixed
  | 'g' | 'G' => real .general
  | _ => none

/-! ## Messages -/

def amountOf : Option Amount → List Json → Option (Option Int × List Json)
  | none, args => some (none, args)
  | some (.number n), args => some (some n, args)
  | some .argument, arg :: args => arg.integer?.map fun n => (some n, args)
  | some .argument, [] => none

/-- The arguments of a directive: those that are left, or the field that it names. -/
def argumentsOf (fields : Option (List (String × Json))) (d : Directive) (args : List Json) :
    Option (List Json) :=
  match d.key with
  | none => some args
  | some key => (fields.bind (·.lookup key)).map ([·])

/-- The text of one directive, and the arguments after it. A negative width fills on the right. -/
def fillOne (fields : Option (List (String × Json))) (d : Directive) (args : List Json) :
    Option (List Char × List Json) := do
  let args ← argumentsOf fields d args
  let (width, args) ← amountOf d.width args
  let (precision, args) ← amountOf d.precision args
  let width := width.getD 0
  let d := { d with left := d.left || width < 0 }
  match args with
  | [] => none
  | arg :: args => return (← field d width.natAbs (precision.map Int.toNat) arg, args)

/-- The text of the pieces. All arguments are to be used, unless they are fields. -/
def fill (fields : Option (List (String × Json))) : List Piece → List Json → Option (List Char)
  | [], args => if args.isEmpty || fields.isSome then some [] else none
  | .char c :: rest, args => (fill fields rest args).map (c :: ·)
  | .directive d :: rest, args => do
    let (text, args) ← fillOne fields d args
    return text ++ (← fill fields rest args)

/-- The message of a template and arguments, none if they do not go together. Without arguments the
template is the message. -/
def ofTemplate (template : String) (args : List Json) : Option String :=
  if args.isEmpty then some template
  else do
    let cs := template.toList
    let pieces ← pieces cs.length cs
    let fields :=
      match args with
      | [.object (f :: fs)] => some (f :: fs)
      | _ => none
    return String.ofList (← fill fields pieces args)

end Message

end CallGraph
