import CallGraph.Proofs.Parsing.Basic

/-!
The grammar of Core Erlang as a relation between tokens and what they write. A form is a part of the
grammar, and `Writes f ts x rest` says that the tokens `ts` are those of a form `f` that writes `x`,
followed by the tokens `rest`. A production never looks at the tokens that follow it.
-/

namespace CallGraph

open CallGraph.Parser

/-- The three kinds of phrases that can be elements of a list. -/
inductive Category where
  | const
  | pattern
  | expr

namespace Category

abbrev Tree : Category → Type
  | .const => Const
  | .pattern => Pattern
  | .expr => Expr

/-- What is kept of an annotated phrase: annotations of constants and of patterns are dropped. -/
abbrev Element : Category → Type
  | .const => Const
  | .pattern => Pattern
  | .expr => Ann Expr

def keep : (s : Category) → Ann s.Tree → s.Element
  | .const, a => a.node
  | .pattern, a => a.node
  | .expr, a => a

def lit : (s : Category) → Literal → s.Tree
  | .const => Const.lit
  | .pattern => Pattern.lit
  | .expr => Expr.lit

def tuple : (s : Category) → List s.Element → s.Tree
  | .const => Const.tuple
  | .pattern => Pattern.tuple
  | .expr => Expr.tuple

def list : (s : Category) → List s.Element → Option s.Element → s.Tree
  | .const => Const.list
  | .pattern => Pattern.list
  | .expr => Expr.list

end Category

/-- The forms of the grammar. -/
inductive Form where
  /-- A form on its own or in parentheses. -/
  | annotated (f : Form)
  /-- An annotated form of which the annotations are dropped. -/
  | stripped (f : Form)
  /-- The end of a parenthesis, with the annotations before it. -/
  | closing
  /-- One or more, with commas between them. -/
  | items (f : Form)
  /-- Any number, with commas between them, and the symbol that closes them. -/
  | sequence (f : Form) (close : String)
  /-- Any number, one after the other, and the symbol that ends them. -/
  | run (f : Form) (stop : String)
  | atom
  | var
  | literal
  | funName
  | mapOp
  /-- A phrase without annotations, and not a list with elements. -/
  | base (s : Category)
  /-- A phrase without annotations. -/
  | bare (s : Category)
  | element (s : Category)
  /-- The elements and the tail of a list, and the bracket that closes it. -/
  | cells (s : Category)
  /-- A tail that is not merged into the list before it. -/
  | tail (s : Category)
  | constSegment
  | constPair
  | varList
  | patterns
  | patternSegment
  | patternPair
  /-- A clause, which has no parentheses around it. -/
  | bareClause
  | clause
  | definition
  | segment
  | mapPair
  /-- The pairs and the base of a map, and the mark that closes it. -/
  | mapBody
  | arguments
  | attribute
  | module

/-- What a form writes. -/
abbrev Form.Tree : Form → Type
  | .annotated f => Ann f.Tree
  | .stripped f => f.Tree
  | .closing => List Const
  | .items f | .sequence f _ | .run f _ => List f.Tree
  | .atom | .var => String
  | .literal => Literal
  | .funName => FunName
  | .mapOp => MapOp
  | .base s | .bare s => s.Tree
  | .element s | .tail s => s.Element
  | .cells s => List s.Element × Option s.Element
  | .constSegment => List Const
  | .constPair => Const × Const
  | .varList => List String
  | .patterns => List Pattern
  | .patternSegment => PatternSegment
  | .patternPair => PatternPair
  | .bareClause => Clause
  | .clause => Ann Clause
  | .definition => Ann Definition
  | .segment => Segment
  | .mapPair => MapPair
  | .mapBody => List MapPair × Option (Ann Expr)
  | .arguments => List (Ann Expr)
  | .attribute => String × Const
  | .module => Module

/-- The literal that a token is. -/
inductive Token.Denotes (t : Token) : Literal → Prop
  | atom : t.kind = .atom → t.Denotes (.atom t.text)
  | integer : t.kind = .integer → t.Denotes (.integer (Numeral.integerValue t.text.toList))
  | float : t.kind = .float → t.Denotes (.float (Numeral.float t.text))
  | char : t.kind = .char → t.Denotes (.char t.text)
  | string : t.kind = .string → t.Denotes (.string t.text)

/-- The number of digits of an integer is at most the limit. -/
def Token.Short (digits : Nat) (t : Token) : Prop :=
  t.kind = .integer → (Numeral.sign t.text.toList).2.length ≤ digits

namespace Token

variable {t : Token} {x : Literal} {digits : Nat}

theorem denotes_of_literal? (h : t.literal? digits = some (.ok x)) : t.Denotes x := by
  cases hk : t.kind <;>
    simp only [literal?, hk, Option.some.injEq, Except.ok.injEq, reduceCtorEq] at h
  case integer =>
    simp only [Numeral.integer] at h
    split at h
    · simp [Except.map] at h
    · cases h
      exact .integer hk
  all_goals subst x
  · exact .atom hk
  · exact .string hk
  · exact .char hk
  · exact .float hk

theorem Denotes.literal?_eq (h : t.Denotes x) (hshort : t.Short digits) :
    t.literal? digits = some (.ok x) := by
  cases h with
  | integer hk =>
    have hle := hshort hk
    simp only [literal?, hk, Numeral.integer, if_neg (Nat.not_lt.2 hle)]
    rfl
  | atom hk | float hk | char hk | string hk => simp [literal?, hk]

theorem Denotes.is_eq_false (h : t.Denotes x) (s : String) : t.is s = false := by
  cases h with
  | atom h | integer h | float h | char h | string h => exact is_of_kind s h (by decide)

theorem Denotes.kind_ne_var (h : t.Denotes x) : t.kind ≠ .var := by
  cases h with
  | atom h | integer h | float h | char h | string h => simp [h]

end Token

/-- The productions of the grammar. -/
inductive Writes : (f : Form) → List Token → f.Tree → List Token → Prop
  -- Parentheses and annotations. Those of inner parentheses come first.
  | plain {f : Form} {ts rest : List Token} {x : f.Tree} :
      Writes f ts x rest → Writes (.annotated f) ts (Ann.plain x) rest
  | parens {f : Form} {o : Token} {ts mid rest : List Token} {a : Ann f.Tree} {cs : List Const} :
      o.is "(" → Writes (.annotated f) ts a mid → Writes .closing mid cs rest →
      Writes (.annotated f) (o :: ts) (Ann.mk a.node (a.annotations ++ cs)) rest
  | stripped {f : Form} {ts rest : List Token} {a : Ann f.Tree} :
      Writes (.annotated f) ts a rest → Writes (.stripped f) ts a.node rest
  | closed {c : Token} {rest : List Token} : c.is ")" → Writes .closing (c :: rest) [] rest
  | annotations {b o c : Token} {ts rest : List Token} {cs : List Const} :
      b.is "-|" → o.is "[" → Writes (.sequence (.element .const) "]") ts cs (c :: rest) →
      c.is ")" → Writes .closing (b :: o :: ts) cs rest
  -- Rows.
  | one {f : Form} {ts rest : List Token} {x : f.Tree} :
      Writes f ts x rest → Writes (.items f) ts [x] rest
  | more {f : Form} {c : Token} {ts mid rest : List Token} {x : f.Tree} {xs : List f.Tree} :
      Writes f ts x (c :: mid) → c.is "," → Writes (.items f) mid xs rest →
      Writes (.items f) ts (x :: xs) rest
  | empty {f : Form} {close : String} {c : Token} {rest : List Token} :
      c.is close → Writes (.sequence f close) (c :: rest) [] rest
  | filled {f : Form} {close : String} {c : Token} {ts rest : List Token} {xs : List f.Tree} :
      Writes (.items f) ts xs (c :: rest) → c.is close → Writes (.sequence f close) ts xs rest
  | stop {f : Form} {stop : String} {c : Token} {rest : List Token} :
      c.is stop → Writes (.run f stop) (c :: rest) [] rest
  | go {f : Form} {stop : String} {ts mid rest : List Token} {x : f.Tree} {xs : List f.Tree} :
      Writes f ts x mid → Writes (.run f stop) mid xs rest → Writes (.run f stop) ts (x :: xs) rest
  -- Words.
  | atom {t : Token} {rest : List Token} : t.kind = .atom → Writes .atom (t :: rest) t.text rest
  | varName {t : Token} {rest : List Token} : t.kind = .var → Writes .var (t :: rest) t.text rest
  | literal {t : Token} {l : Literal} {rest : List Token} :
      t.Denotes l → Writes .literal (t :: rest) l rest
  | funName {a s n : Token} {rest : List Token} :
      a.kind = .atom → s.is "/" → n.kind = .integer →
      Writes .funName (a :: s :: n :: rest)
        (FunName.mk a.text (Numeral.integerValue n.text.toList)) rest
  | put {t : Token} {rest : List Token} : t.is "=>" → Writes .mapOp (t :: rest) MapOp.put rest
  | update {t : Token} {rest : List Token} : t.is ":=" → Writes .mapOp (t :: rest) MapOp.update rest
  -- Phrases of all categories.
  | lit {s : Category} {ts rest : List Token} {l : Literal} :
      Writes .literal ts l rest → Writes (.base s) ts (s.lit l) rest
  | nil {s : Category} {o c : Token} {rest : List Token} :
      o.is "[" → c.is "]" → Writes (.base s) (o :: c :: rest) (s.lit .nil) rest
  | tuple {s : Category} {o : Token} {ts rest : List Token} {xs : List s.Element} :
      o.is "\x7b" → Writes (.sequence (.element s) "\x7d") ts xs rest →
      Writes (.base s) (o :: ts) (s.tuple xs) rest
  | base {s : Category} {ts rest : List Token} {x : s.Tree} :
      Writes (.base s) ts x rest → Writes (.bare s) ts x rest
  | list {s : Category} {o : Token} {ts rest : List Token}
      {c : List s.Element × Option s.Element} :
      o.is "[" → Writes (.cells s) ts c rest → Writes (.bare s) (o :: ts) (s.list c.1 c.2) rest
  | element {s : Category} {ts rest : List Token} {a : Ann s.Tree} :
      Writes (.annotated (.bare s)) ts a rest → Writes (.element s) ts (s.keep a) rest
  -- Lists. A tail that is directly a list with elements is merged into the list before it.
  | proper {s : Category} {c : Token} {ts rest : List Token} {xs : List s.Element} :
      Writes (.items (.element s)) ts xs (c :: rest) → c.is "]" → Writes (.cells s) ts (xs, none) rest
  | improper {s : Category} {b c : Token} {ts mid rest : List Token} {xs : List s.Element}
      {x : s.Element} :
      Writes (.items (.element s)) ts xs (b :: mid) → b.is "|" → Writes (.tail s) mid x (c :: rest) →
      c.is "]" → Writes (.cells s) ts (xs, some x) rest
  | merged {s : Category} {b o c : Token} {ts mid rest : List Token} {xs : List s.Element}
      {ys : List s.Element × Option s.Element} :
      Writes (.items (.element s)) ts xs (b :: o :: mid) → b.is "|" → o.is "[" →
      Writes (.cells s) mid ys (c :: rest) → c.is "]" → Writes (.cells s) ts (xs ++ ys.1, ys.2) rest
  | baseTail {s : Category} {ts rest : List Token} {x : s.Tree} :
      Writes (.base s) ts x rest → Writes (.tail s) ts (s.keep (Ann.plain x)) rest
  | parensTail {s : Category} {o : Token} {ts mid rest : List Token} {a : Ann s.Tree}
      {cs : List Const} :
      o.is "(" → Writes (.annotated (.bare s)) ts a mid → Writes .closing mid cs rest →
      Writes (.tail s) (o :: ts) (s.keep (Ann.mk a.node (a.annotations ++ cs))) rest
  -- Constants.
  | constBinary {o : Token} {ts rest : List Token} {segments : List (List Const)} :
      o.is "#\x7b" → Writes (.sequence .constSegment "\x7d#") ts segments rest →
      Writes (.base .const) (o :: ts) (Const.binary segments) rest
  | constMap {o : Token} {ts rest : List Token} {pairs : List (Const × Const)} :
      o.is "~\x7b" → Writes (.sequence .constPair "\x7d~") ts pairs rest →
      Writes (.base .const) (o :: ts) (Const.map pairs) rest
  | constSegment {o c p : Token} {ts mid rest : List Token} {value : Const}
      {modifiers : List Const} :
      o.is "#<" → Writes (.element .const) ts value (c :: p :: mid) → c.is ">" → p.is "(" →
      Writes (.sequence (.element .const) ")") mid modifiers rest →
      Writes .constSegment (o :: ts) (value :: modifiers) rest
  | constPair {ts mid mid' rest : List Token} {key value : Const} {op : MapOp} :
      Writes (.element .const) ts key mid → Writes .mapOp mid op mid' →
      Writes (.element .const) mid' value rest → Writes .constPair ts (key, value) rest
  -- Patterns.
  | patternVar {v : Token} {rest : List Token} :
      v.kind = .var → Writes (.base .pattern) (v :: rest) (Pattern.var v.text) rest
  | aliased {v e : Token} {ts rest : List Token} {p : Pattern} :
      v.kind = .var → e.is "=" → Writes (.element .pattern) ts p rest →
      Writes (.base .pattern) (v :: e :: ts) (Pattern.alias v.text p) rest
  | patternBinary {o : Token} {ts rest : List Token} {segments : List PatternSegment} :
      o.is "#\x7b" → Writes (.sequence .patternSegment "\x7d#") ts segments rest →
      Writes (.base .pattern) (o :: ts) (Pattern.binary segments) rest
  | patternMap {o : Token} {ts rest : List Token} {pairs : List PatternPair} :
      o.is "~\x7b" → Writes (.sequence .patternPair "\x7d~") ts pairs rest →
      Writes (.base .pattern) (o :: ts) (Pattern.map pairs) rest
  | patternSegment {o c p : Token} {ts mid rest : List Token} {pattern : Pattern}
      {size unit type flags : Ann Expr} :
      o.is "#<" → Writes (.element .pattern) ts pattern (c :: p :: mid) → c.is ">" → p.is "(" →
      Writes (.sequence (.element .expr) ")") mid [size, unit, type, flags] rest →
      Writes .patternSegment (o :: ts) (PatternSegment.mk pattern size unit type flags) rest
  | patternPair {c : Token} {ts mid rest : List Token} {key : Ann Expr} {pattern : Pattern} :
      Writes (.element .expr) ts key (c :: mid) → c.is ":=" →
      Writes (.element .pattern) mid pattern rest →
      Writes .patternPair ts (PatternPair.mk key pattern) rest
  | onePattern {ts rest : List Token} {p : Pattern} :
      Writes (.element .pattern) ts p rest → Writes .patterns ts [p] rest
  | manyPatterns {o : Token} {ts rest : List Token} {ps : List Pattern} :
      o.is "<" → Writes (.sequence (.element .pattern) ">") ts ps rest →
      Writes .patterns (o :: ts) ps rest
  | oneVar {ts rest : List Token} {v : String} :
      Writes (.stripped .var) ts v rest → Writes .varList ts [v] rest
  | manyVars {o : Token} {ts rest : List Token} {vs : List String} :
      o.is "<" → Writes (.sequence (.stripped .var) ">") ts vs rest →
      Writes .varList (o :: ts) vs rest
  -- Clauses and definitions.
  | bareClause {w a : Token} {ts mid mid' rest : List Token} {ps : List Pattern}
      {guard body : Ann Expr} :
      Writes .patterns ts ps (w :: mid) → w.is "when" →
      Writes (.element .expr) mid guard (a :: mid') → a.is "->" →
      Writes (.element .expr) mid' body rest → Writes .bareClause ts (Clause.mk ps guard body) rest
  | clause {ts rest : List Token} {c : Clause} :
      Writes .bareClause ts c rest → Writes .clause ts (Ann.plain c) rest
  | parensClause {o : Token} {ts mid rest : List Token} {c : Clause} {cs : List Const} :
      o.is "(" → Writes .bareClause ts c mid → Writes .closing mid cs rest →
      Writes .clause (o :: ts) (Ann.mk c cs) rest
  | definition {e : Token} {ts mid rest : List Token} {name : Ann FunName} {params : List String}
      {body : Ann Expr} {annotations : List Const} :
      Writes (.annotated .funName) ts name (e :: mid) → e.is "=" →
      Writes (.element .expr) mid (Ann.mk (.lambda params body) annotations) rest →
      Writes .definition ts
        (Ann.mk (Definition.mk name.node (Ann.mk (.lambda params body) annotations))
          name.annotations) rest
  -- Expressions.
  | var {v : Token} {rest : List Token} :
      v.kind = .var → Writes (.base .expr) (v :: rest) (Expr.var v.text) rest
  | funRef {ts rest : List Token} {name : FunName} :
      Writes .funName ts name rest → Writes (.base .expr) ts (Expr.funRef name) rest
  | lambda {k o a : Token} {ts mid rest : List Token} {params : List String} {body : Ann Expr} :
      k.IsKeyword "fun" → o.is "(" → Writes (.sequence (.stripped .var) ")") ts params (a :: mid) →
      a.is "->" → Writes (.element .expr) mid body rest →
      Writes (.base .expr) (k :: o :: ts) (Expr.lambda params body) rest
  | letIn {k e i : Token} {ts mid mid' rest : List Token} {vars : List String}
      {value body : Ann Expr} :
      k.IsKeyword "let" → Writes .varList ts vars (e :: mid) → e.is "=" →
      Writes (.element .expr) mid value (i :: mid') → i.is "in" →
      Writes (.element .expr) mid' body rest →
      Writes (.base .expr) (k :: ts) (Expr.letIn vars value body) rest
  | seq {k : Token} {ts mid rest : List Token} {first next : Ann Expr} :
      k.IsKeyword "do" → Writes (.element .expr) ts first mid → Writes (.element .expr) mid next rest →
      Writes (.base .expr) (k :: ts) (Expr.seq first next) rest
  | letRec {k : Token} {ts mid rest : List Token} {ds : List (Ann Definition)} {body : Ann Expr} :
      k.IsKeyword "letrec" → Writes (.run .definition "in") ts ds mid →
      Writes (.element .expr) mid body rest →
      Writes (.base .expr) (k :: ts) (Expr.letRec ds body) rest
  | caseOf {k o : Token} {ts mid rest : List Token} {subject : Ann Expr} {cs : List (Ann Clause)} :
      k.IsKeyword "case" → Writes (.element .expr) ts subject (o :: mid) → o.is "of" →
      Writes (.run .clause "end") mid cs rest →
      Writes (.base .expr) (k :: ts) (Expr.caseOf subject cs) rest
  | receive {k a : Token} {ts mid mid' rest : List Token} {cs : List (Ann Clause)}
      {timeout action : Ann Expr} :
      k.IsKeyword "receive" → Writes (.run .clause "after") ts cs mid →
      Writes (.element .expr) mid timeout (a :: mid') → a.is "->" →
      Writes (.element .expr) mid' action rest →
      Writes (.base .expr) (k :: ts) (Expr.receive cs timeout action) rest
  | apply {k : Token} {ts mid rest : List Token} {function : Ann Expr} {args : List (Ann Expr)} :
      k.IsKeyword "apply" → Writes (.element .expr) ts function mid → Writes .arguments mid args rest →
      Writes (.base .expr) (k :: ts) (Expr.apply function args) rest
  | call {k c : Token} {ts mid mid' rest : List Token} {unit function : Ann Expr}
      {args : List (Ann Expr)} :
      k.IsKeyword "call" → Writes (.element .expr) ts unit (c :: mid) → c.is ":" →
      Writes (.element .expr) mid function mid' → Writes .arguments mid' args rest →
      Writes (.base .expr) (k :: ts) (Expr.call unit function args) rest
  | primop {k : Token} {ts mid rest : List Token} {name : Ann String} {args : List (Ann Expr)} :
      k.IsKeyword "primop" → Writes (.annotated .atom) ts name mid →
      Writes .arguments mid args rest →
      Writes (.base .expr) (k :: ts) (Expr.primop name.node args) rest
  | tryOf {k o a c a' : Token} {ts m₁ m₂ m₃ m₄ rest : List Token} {body success handler : Ann Expr}
      {vars handlerVars : List String} :
      k.IsKeyword "try" → Writes (.element .expr) ts body (o :: m₁) → o.is "of" →
      Writes .varList m₁ vars (a :: m₂) → a.is "->" →
      Writes (.element .expr) m₂ success (c :: m₃) → c.is "catch" →
      Writes .varList m₃ handlerVars (a' :: m₄) → a'.is "->" →
      Writes (.element .expr) m₄ handler rest →
      Writes (.base .expr) (k :: ts) (Expr.tryOf body vars success handlerVars handler) rest
  | catching {k : Token} {ts rest : List Token} {body : Ann Expr} :
      k.IsKeyword "catch" → Writes (.element .expr) ts body rest →
      Writes (.base .expr) (k :: ts) (Expr.catching body) rest
  | values {o : Token} {ts rest : List Token} {es : List (Ann Expr)} :
      o.is "<" → Writes (.sequence (.element .expr) ">") ts es rest →
      Writes (.base .expr) (o :: ts) (Expr.values es) rest
  | binary {o : Token} {ts rest : List Token} {segments : List Segment} :
      o.is "#\x7b" → Writes (.sequence .segment "\x7d#") ts segments rest →
      Writes (.base .expr) (o :: ts) (Expr.binary segments) rest
  | map {o : Token} {ts rest : List Token} {body : List MapPair × Option (Ann Expr)} :
      o.is "~\x7b" → Writes .mapBody ts body rest →
      Writes (.base .expr) (o :: ts) (Expr.map body.1 body.2) rest
  | segment {o c p : Token} {ts mid rest : List Token} {value size unit type flags : Ann Expr} :
      o.is "#<" → Writes (.element .expr) ts value (c :: p :: mid) → c.is ">" → p.is "(" →
      Writes (.sequence (.element .expr) ")") mid [size, unit, type, flags] rest →
      Writes .segment (o :: ts) (Segment.mk value size unit type flags) rest
  | mapPair {ts mid mid' rest : List Token} {key value : Ann Expr} {op : MapOp} :
      Writes (.element .expr) ts key mid → Writes .mapOp mid op mid' →
      Writes (.element .expr) mid' value rest → Writes .mapPair ts (MapPair.mk key value op) rest
  | emptyMap {c : Token} {rest : List Token} :
      c.is "\x7d~" → Writes .mapBody (c :: rest) ([], none) rest
  | newMap {c : Token} {ts rest : List Token} {pairs : List MapPair} :
      Writes (.items .mapPair) ts pairs (c :: rest) → c.is "\x7d~" →
      Writes .mapBody ts (pairs, none) rest
  | sameMap {b c : Token} {ts rest : List Token} {e : Ann Expr} :
      b.is "|" → Writes (.element .expr) ts e (c :: rest) → c.is "\x7d~" →
      Writes .mapBody (b :: ts) ([], some e) rest
  | changedMap {b c : Token} {ts mid rest : List Token} {pairs : List MapPair} {e : Ann Expr} :
      Writes (.items .mapPair) ts pairs (b :: mid) → b.is "|" →
      Writes (.element .expr) mid e (c :: rest) → c.is "\x7d~" →
      Writes .mapBody ts (pairs, some e) rest
  | arguments {o : Token} {ts rest : List Token} {args : List (Ann Expr)} :
      o.is "(" → Writes (.sequence (.element .expr) ")") ts args rest →
      Writes .arguments (o :: ts) args rest
  -- Modules.
  | attributePair {e : Token} {ts mid rest : List Token} {key : Ann String} {value : Const} :
      Writes (.annotated .atom) ts key (e :: mid) → e.is "=" →
      Writes (.element .const) mid value rest → Writes .attribute ts (key.node, value) rest
  | module {k n o a o' : Token} {ts mid mid' rest : List Token} {exports : List FunName}
      {attributes : List (String × Const)} {definitions : List (Ann Definition)} :
      k.is "module" → n.kind = .atom → o.is "[" →
      Writes (.sequence (.stripped .funName) "]") ts exports (a :: o' :: mid) →
      a.is "attributes" → o'.is "[" → Writes (.sequence .attribute "]") mid attributes mid' →
      Writes (.run .definition "end") mid' definitions rest →
      Writes .module (k :: n :: o :: ts) (Module.mk n.text exports attributes definitions) rest

/-! ## First tokens -/

/-- The symbols with which an expression can begin, and a constant or a pattern cannot. -/
def Category.keywords : Category → List String
  | .const | .pattern => []
  | .expr => ["<", "fun", "let", "do", "letrec", "case", "receive", "apply", "call", "primop",
      "try", "catch"]

/-- The symbols with which a phrase can begin, if it has no parentheses around it. -/
def Category.openers (s : Category) : List String :=
  "[" :: "\x7b" :: "#\x7b" :: "~\x7b" :: s.keywords

/-- The symbols with which a form can begin. -/
def Form.openers : Form → List String
  | .annotated f | .stripped f => "(" :: f.openers
  | .closing => [")", "-|"]
  | .items f => f.openers
  | .sequence f close => close :: f.openers
  | .run f stop => stop :: f.openers
  | .atom | .var | .literal | .funName => []
  | .mapOp => ["=>", ":="]
  | .base s | .bare s => s.openers
  | .element s | .tail s | .cells s => "(" :: s.openers
  | .constSegment | .patternSegment | .segment => ["#<"]
  | .constPair => "(" :: Category.const.openers
  | .varList => ["<", "("]
  | .patterns | .bareClause | .clause => "<" :: "(" :: Category.pattern.openers
  | .patternPair | .mapPair => "(" :: Category.expr.openers
  | .definition | .arguments | .attribute => ["("]
  | .mapBody => "\x7d~" :: "|" :: "(" :: Category.expr.openers
  | .module => ["module"]

/-- The tokens begin as a form does: with a token that is no symbol, or with one of its symbols. -/
def Form.Begins (f : Form) : List Token → Prop
  | [] => False
  | t :: _ => ∀ s, t.is s → s ∈ f.openers

namespace Form.Begins

variable {f g : Form} {t : Token} {ts : List Token}

theorem ne_nil (h : f.Begins ts) : ts ≠ [] := by
  rintro rfl
  exact h

theorem mono (h : f.Begins ts) (hfg : f.openers ⊆ g.openers) : g.Begins ts := by
  cases ts with
  | nil => exact h
  | cons t ts => exact fun s hs => hfg (h s hs)

theorem symbol {s : String} (h : t.is s) (hs : s ∈ f.openers) : f.Begins (t :: ts) := by
  intro s' hs'
  rw [← Token.is_inj h hs']
  exact hs

theorem word (h : ∀ s, t.is s = false) : f.Begins (t :: ts) := by
  intro s hs
  simp [h] at hs

theorem startsWith_eq_false {s : String} (h : f.Begins ts) (hs : s ∉ f.openers) :
    startsWith s ts = false := by
  cases ts with
  | nil => rfl
  | cons t ts =>
    rw [startsWith, Bool.eq_false_iff]
    exact fun ht => hs (h s ht)

end Form.Begins

/-- What is written begins as its form does. -/
theorem Writes.begins {f : Form} {ts rest : List Token} {x : f.Tree} (h : Writes f ts x rest) :
    f.Begins ts := by
  -- A form begins with a symbol of its own, as its first part does, or with a word.
  induction h
  all_goals first
    | exact .symbol ‹_› (by simp [Form.openers, Category.openers, Category.keywords])
    | exact .symbol (Token.IsKeyword.is ‹_›)
        (by simp [Form.openers, Category.openers, Category.keywords])
    | exact Form.Begins.mono ‹_› (by simp [Form.openers, Category.openers])
    | exact .word fun s => Token.is_of_kind s ‹_› (by decide)
    | exact .word fun s => Token.Denotes.is_eq_false ‹_› s

/-- What follows is the end of all the tokens. -/
theorem Writes.suffix {f : Form} {ts rest : List Token} {x : f.Tree} (h : Writes f ts x rest) :
    rest <:+ ts := by
  induction h
  all_goals grind [List.IsSuffix.trans, List.suffix_cons]

/-- A form takes at least one token. -/
theorem Writes.length_lt {f : Form} {ts rest : List Token} {x : f.Tree} (h : Writes f ts x rest) :
    rest.length < ts.length := by
  induction h
  all_goals grind

end CallGraph
