import CallGraph.Token
import CallGraph.Token.Escape
import CallGraph.Text.Blank
import CallGraph.Text.DecimalDigit

/-!
Lexemes: the pieces into which a text is cut. Each class of lexemes has a scanner that takes a
lexeme of the class from the front of the text. Main statement: a scanner splits the text into a
lexeme, which is not empty, and the rest.
-/

namespace CallGraph

open Text

/-- A scanner gives the lexeme at the front of a text and the rest, if there is such a lexeme. -/
abbrev Scanner := List Char → Option (List Char × List Char)

namespace Scanner

/-- One or more blanks, or a comment, which ends before the end of its line. -/
def blank : Scanner
  | '%' :: cs => some ('%' :: cs.takeWhile (· != '\n'), cs.dropWhile (· != '\n'))
  | c :: cs =>
    if isBlank c then some (c :: cs.takeWhile isBlank, cs.dropWhile isBlank) else none
  | [] => none

/-- What stands before the next mark that is not escaped, and what stands after it. -/
def untilMark (mark : Char) : List Char → Option (List Char × List Char)
  | [] => none
  | '\\' :: c :: cs => (untilMark mark cs).map fun r => ('\\' :: c :: r.1, r.2)
  | c :: cs =>
    if c == mark then some ([], cs)
    else if c == '\\' then none
    else (untilMark mark cs).map fun r => (c :: r.1, r.2)

def between (mark : Char) : Scanner
  | c :: cs =>
    if c == mark then (untilMark mark cs).map fun r => (mark :: r.1 ++ [mark], r.2) else none
  | [] => none

/-- An escape in a character: two hexadecimal digits without braces are none. -/
def charEscape : Scanner := fun cs =>
  match Escape.read? cs with
  | some (.pair a b, rest) => some (['x'], a :: b :: rest)
  | some (e, rest) => some (e.spelling, rest)
  | none => none

/-- A dollar sign and one character, which may be escaped. -/
def char : Scanner
  | '$' :: '\\' :: cs => (charEscape cs).map fun r => ('$' :: '\\' :: r.1, r.2)
  | '$' :: c :: cs => some (['$', c], cs)
  | _ => none

def digits : Scanner := fun cs =>
  match cs.takeWhile isDigit with
  | [] => none
  | d :: ds => some (d :: ds, cs.dropWhile isDigit)

def signed (scan : Scanner) : Scanner
  | '+' :: cs => (scan cs).map fun r => ('+' :: r.1, r.2)
  | '-' :: cs => (scan cs).map fun r => ('-' :: r.1, r.2)
  | cs => scan cs

def integer : Scanner := signed digits

def exponent : Scanner
  | 'e' :: cs => (integer cs).map fun r => ('e' :: r.1, r.2)
  | 'E' :: cs => (integer cs).map fun r => ('E' :: r.1, r.2)
  | _ => none

/-- The digits after a point, with or without an exponent. -/
def fraction (cs : List Char) : Option (List Char × List Char) :=
  match digits cs with
  | none => none
  | some (ds, rest) =>
    match exponent rest with
    | some (es, rest') => some (ds ++ es, rest')
    | none => some (ds, rest)

def decimal : Scanner := fun cs =>
  match digits cs with
  | some (ds, '.' :: rest) => (fraction rest).map fun r => (ds ++ '.' :: r.1, r.2)
  | _ => none

def float : Scanner := signed decimal

def isWordChar (c : Char) : Bool := c.isAlphanum || c == '_' || c == '@'

def word (isFirst : Char → Bool) : Scanner
  | c :: cs =>
    if isFirst c then some (c :: cs.takeWhile isWordChar, cs.dropWhile isWordChar) else none
  | [] => none

def var : Scanner := word fun c => c.isUpper || c == '_'

def name : Scanner := word Char.isLower

def twoCharMarks : List (Char × Char) := [
  ('-', '|'), ('-', '>'), ('=', '>'), (':', '='), ('#', '{'), ('}', '#'), ('~', '{'), ('}', '~'),
  ('#', '<')]

def oneCharMarks : List Char :=
  ['(', ')', '[', ']', '{', '}', '<', '>', ',', '|', ':', '/', '=']

def punct : Scanner
  | a :: b :: cs =>
    if (a, b) ∈ twoCharMarks then some ([a, b], cs)
    else if a ∈ oneCharMarks then some ([a], b :: cs)
    else none
  | [a] => if a ∈ oneCharMarks then some ([a], []) else none
  | [] => none

def ofKind : Kind → Scanner
  | .atom => between '\''
  | .string => between '"'
  | .char => char
  | .float => float
  | .integer => integer
  | .var => var
  | .name => name
  | .punct => punct

/-- Each lexeme is not empty and is taken from the front of the text. -/
def Splits (scan : Scanner) : Prop :=
  ∀ cs l rest, scan cs = some (l, rest) → cs = l ++ rest ∧ l ≠ []

theorem splits_blank : Splits blank := by
  intro cs l rest h
  unfold blank at h
  split at h
  next => cases h; simp
  next =>
    split at h
    · cases h; simp
    · cases h
  next => cases h

theorem untilMark_eq {mark : Char} {cs l rest : List Char}
    (h : untilMark mark cs = some (l, rest)) : cs = l ++ mark :: rest := by
  fun_induction untilMark mark cs generalizing l rest with
  | case1 => cases h
  | case2 c cs ih =>
    obtain ⟨r, hr, heq⟩ := Option.map_eq_some_iff.1 h
    cases heq
    simpa using ih hr
  | case3 c cs _ hmark => cases h; simpa using hmark
  | case4 => cases h
  | case5 c cs _ _ _ ih =>
    obtain ⟨r, hr, heq⟩ := Option.map_eq_some_iff.1 h
    cases heq
    simpa using ih hr

theorem splits_between (mark : Char) : Splits (between mark) := by
  intro cs l rest h
  unfold between at h
  split at h
  next c cs =>
    split at h
    next hmark =>
      obtain ⟨r, hr, heq⟩ := Option.map_eq_some_iff.1 h
      cases heq
      have := untilMark_eq hr
      simp_all
    next => cases h
  next => cases h

theorem splits_charEscape : Splits charEscape := by
  intro cs l rest h
  unfold charEscape at h
  split at h
  next a b rest' hread => cases h; exact ⟨Escape.read?_eq hread, by simp⟩
  next e rest' _ hread =>
    cases h
    exact ⟨Escape.read?_eq hread, Escape.spelling_ne_nil_of_read? hread⟩
  next => cases h

theorem splits_char : Splits char := by
  intro cs l rest h
  unfold char at h
  split at h
  next cs =>
    obtain ⟨r, hr, heq⟩ := Option.map_eq_some_iff.1 h
    cases heq
    simp [(splits_charEscape _ _ _ hr).1]
  next => cases h; simp
  next => cases h

theorem splits_digits : Splits digits := by
  intro cs l rest h
  unfold digits at h
  split at h
  next => cases h
  next d ds hds =>
    cases h
    rw [← hds]
    exact ⟨List.takeWhile_append_dropWhile.symm, by simp [hds]⟩

theorem splits_signed {scan : Scanner} (hscan : Splits scan) : Splits (signed scan) := by
  intro cs l rest h
  unfold signed at h
  split at h
  next cs =>
    obtain ⟨r, hr, heq⟩ := Option.map_eq_some_iff.1 h
    cases heq
    simp [(hscan _ _ _ hr).1]
  next cs =>
    obtain ⟨r, hr, heq⟩ := Option.map_eq_some_iff.1 h
    cases heq
    simp [(hscan _ _ _ hr).1]
  next => exact hscan _ _ _ h

theorem splits_integer : Splits integer := splits_signed splits_digits

theorem splits_exponent : Splits exponent := by
  intro cs l rest h
  unfold exponent at h
  split at h
  next =>
    obtain ⟨r, hr, heq⟩ := Option.map_eq_some_iff.1 h
    cases heq
    simp [(splits_integer _ _ _ hr).1]
  next =>
    obtain ⟨r, hr, heq⟩ := Option.map_eq_some_iff.1 h
    cases heq
    simp [(splits_integer _ _ _ hr).1]
  next => cases h

theorem splits_fraction : Splits fraction := by
  intro cs l rest h
  unfold fraction at h
  split at h
  next => cases h
  next ds rest' hds =>
    obtain ⟨rfl, hne⟩ := splits_digits _ _ _ hds
    split at h
    next es rest'' hes =>
      cases h
      simp [(splits_exponent _ _ _ hes).1, hne]
    next => cases h; exact ⟨rfl, hne⟩

theorem splits_decimal : Splits decimal := by
  intro cs l rest h
  unfold decimal at h
  split at h
  next ds rest' hds =>
    obtain ⟨r, hr, heq⟩ := Option.map_eq_some_iff.1 h
    cases heq
    simp [(splits_digits _ _ _ hds).1, (splits_fraction _ _ _ hr).1]
  next => cases h

theorem splits_float : Splits float := splits_signed splits_decimal

theorem splits_word (isFirst : Char → Bool) : Splits (word isFirst) := by
  intro cs l rest h
  unfold word at h
  split at h
  next =>
    split at h
    · cases h; simp
    · cases h
  next => cases h

theorem splits_punct : Splits punct := by
  intro cs l rest h
  unfold punct at h
  split at h
  next =>
    split at h
    · cases h; simp
    · split at h
      · cases h; simp
      · cases h
  next =>
    split at h
    · cases h; simp
    · cases h
  next => cases h

theorem splits_ofKind : ∀ k, Splits (ofKind k)
  | .atom => splits_between _
  | .string => splits_between _
  | .char => splits_char
  | .float => splits_float
  | .integer => splits_integer
  | .var => splits_word _
  | .name => splits_word _
  | .punct => splits_punct

end Scanner

/-- A piece of a text. One without a kind is blank. -/
structure Lexeme where
  kind : Option Kind
  spelling : List Char
deriving DecidableEq

namespace Lexeme

/-- The kinds in the order in which they are tried. A number with a point is tried before one
without. -/
def kinds : List Kind := [.atom, .string, .char, .float, .integer, .var, .name, .punct]

def ofKind? (cs : List Char) (k : Kind) : Option (Lexeme × List Char) :=
  (Scanner.ofKind k cs).map fun r => (⟨some k, r.1⟩, r.2)

def first? (cs : List Char) : Option (Lexeme × List Char) :=
  match Scanner.blank cs with
  | some (l, rest) => some (⟨none, l⟩, rest)
  | none => kinds.findSome? (ofKind? cs)

/-- The first lexeme is not empty and stands in front of the rest. -/
theorem first?_eq {cs rest : List Char} {l : Lexeme} (h : first? cs = some (l, rest)) :
    cs = l.spelling ++ rest ∧ l.spelling ≠ [] := by
  unfold first? at h
  split at h
  next hblank => cases h; exact Scanner.splits_blank _ _ _ hblank
  next =>
    obtain ⟨k, _, hk⟩ := List.exists_of_findSome?_eq_some h
    obtain ⟨r, hr, heq⟩ := Option.map_eq_some_iff.1 hk
    cases heq
    exact Scanner.splits_ofKind k _ _ _ hr

theorem length_lt_of_first? {cs rest : List Char} {l : Lexeme} (h : first? cs = some (l, rest)) :
    rest.length < cs.length := by
  obtain ⟨rfl, hne⟩ := first?_eq h
  have := List.length_pos_iff.2 hne
  simp only [List.length_append]
  omega

def meaning (k : Kind) (spelling : List Char) : Except ConversionError String :=
  match k with
  | .atom | .string => (unescape (spelling.drop 1).dropLast).map String.ofList
  | _ => .ok (String.ofList spelling)

/-- The token at `offset` that the lexeme spells, none for a blank. -/
def token? (l : Lexeme) (offset : Nat) : Except ConversionError (Option Token) :=
  match l.kind with
  | none => .ok none
  | some k => (meaning k l.spelling).map fun text => some ⟨k, text, offset⟩

end Lexeme

end CallGraph
