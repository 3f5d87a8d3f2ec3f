/-!
Tokens of Core Erlang text, and positions in it.
-/

namespace CallGraph

/-- The kinds of tokens. A `name` is a keyword or another word in small letters, a `punct` one of
the punctuation marks. -/
inductive Kind where
  | atom
  | string
  | char
  | float
  | integer
  | var
  | name
  | punct
deriving DecidableEq

def Kind.label : Kind → String
  | .atom => "atom"
  | .string => "string"
  | .char => "char"
  | .float => "float"
  | .integer => "integer"
  | .var => "var"
  | .name => "name"
  | .punct => "punct"

/-- A token and the number of characters before it. The text of an atom or a string is what is meant
by the characters between its quotation marks, that of any other token is its spelling. -/
structure Token where
  kind : Kind
  text : String
  offset : Nat
deriving DecidableEq

/-- Whether the token is the keyword or the punctuation mark `s`. -/
def Token.is (t : Token) (s : String) : Bool :=
  (t.kind == .punct || t.kind == .name) && t.text == s

structure TokenStream where
  tokens : List Token
  length : Nat
deriving DecidableEq

/-- Line and column, both counted from one. -/
structure Position where
  line : Nat
  column : Nat
deriving DecidableEq

def Position.ofOffset (text : List Char) (offset : Nat) : Position :=
  let before := text.take offset
  ⟨before.count '\n' + 1, (before.reverse.takeWhile (· != '\n')).length + 1⟩

end CallGraph
