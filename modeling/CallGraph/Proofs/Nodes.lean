import CallGraph.Proofs.Lexing.Languages
import CallGraph.Proofs.Lexing.Texts
import CallGraph.Proofs.Parsing.Parts

/-!
The nodes of a tree at every depth, those in guards, patterns and annotations too. Every node of a
tree that is read from a text is well formed: definitions are functions, lists and constant segments
are not empty, and the names of variables and the characters are whole lexemes.
-/

namespace CallGraph

/-- A node of a tree. -/
inductive Node where
  /-- The name of a variable, where it is used or where it is bound. -/
  | var (name : String)
  | literal (l : Literal)
  | const (c : Const)
  | constSegment (s : List Const)
  | constPair (p : Const × Const)
  | pattern (p : Pattern)
  | patternSegment (s : PatternSegment)
  | patternPair (p : PatternPair)
  | expr (e : Ann Expr)
  | segment (s : Segment)
  | mapPair (p : MapPair)
  | clause (c : Ann Clause)
  | definition (d : Ann Definition)
  | unit (m : Ann Module)

/-! ## What is below a node -/

def Const.parts : Const → List Node
  | .lit value => [.literal value]
  | .tuple elements => elements.map .const
  | .list elements tail => elements.map .const ++ tail.toList.map .const
  | .binary segments => segments.map .constSegment
  | .map pairs => pairs.map .constPair

def Pattern.parts : Pattern → List Node
  | .var name => [.var name]
  | .lit value => [.literal value]
  | .tuple elements => elements.map .pattern
  | .list elements tail => elements.map .pattern ++ tail.toList.map .pattern
  | .binary segments => segments.map .patternSegment
  | .map pairs => pairs.map .patternPair
  | .alias name pattern => [.var name, .pattern pattern]

def Expr.parts : Expr → List Node
  | .var name => [.var name]
  | .lit value => [.literal value]
  | .funRef _ => []
  | .lambda params body => params.map .var ++ [.expr body]
  | .apply function args => .expr function :: args.map .expr
  | .call unit function args => .expr unit :: .expr function :: args.map .expr
  | .primop _ args => args.map .expr
  | .seq first next => [.expr first, .expr next]
  | .letIn vars value body => vars.map .var ++ [.expr value, .expr body]
  | .letRec definitions body => definitions.map .definition ++ [.expr body]
  | .caseOf subject clauses => .expr subject :: clauses.map .clause
  | .receive clauses timeout action => clauses.map .clause ++ [.expr timeout, .expr action]
  | .tryOf body vars success handlerVars handler =>
    .expr body :: .expr success :: .expr handler :: (vars ++ handlerVars).map .var
  | .catching body => [.expr body]
  | .tuple elements | .values elements => elements.map .expr
  | .list elements tail => elements.map .expr ++ tail.toList.map .expr
  | .binary segments => segments.map .segment
  | .map pairs base => pairs.map .mapPair ++ base.toList.map .expr

namespace Node

/-- The nodes directly below a node. -/
def parts : Node → List Node
  | .var _ | .literal _ => []
  | .const c => c.parts
  | .constSegment s => s.map .const
  | .constPair p => [.const p.1, .const p.2]
  | .pattern p => p.parts
  | .patternSegment s =>
    [.pattern s.pattern, .expr s.size, .expr s.unit, .expr s.type, .expr s.flags]
  | .patternPair p => [.expr p.key, .pattern p.pattern]
  | .expr e => e.node.parts ++ e.annotations.map .const
  | .segment s => [.expr s.value, .expr s.size, .expr s.unit, .expr s.type, .expr s.flags]
  | .mapPair p => [.expr p.key, .expr p.value]
  | .clause c =>
    c.node.patterns.map .pattern ++ [.expr c.node.guard, .expr c.node.body] ++
      c.annotations.map .const
  | .definition d => .expr d.node.function :: d.annotations.map .const
  | .unit m =>
    m.node.attributes.map (fun a => .const a.2) ++ m.node.definitions.map .definition ++
      m.annotations.map .const

/-- The second node is the first or below it, at any depth. -/
inductive Has : Node → Node → Prop
  | self (n : Node) : Has n n
  | within {n p m : Node} : p ∈ n.parts → Has p m → Has n m

/-! ## Well-formed nodes -/

/-- What holds of a node, apart from what is below it. -/
def WellFormed : Node → Prop
  | .var name => name.toList ∈ Lexeme.language (some .var)
  | .literal (.char spelling) => spelling.toList ∈ Lexeme.language (some .char)
  | .const (.list elements _) => elements ≠ []
  | .constSegment s => s ≠ []
  | .pattern (.list elements _) => elements ≠ []
  | .expr ⟨.list elements _, _⟩ => elements ≠ []
  | .mapPair p => p.op.symbol = "=>" ∨ p.op.symbol = ":="
  | .definition d =>
    ∃ params body annotations, d.node.function = ⟨.lambda params body, annotations⟩
  | _ => True

/-- The node and all nodes below it are well formed. -/
def WellBuilt (n : Node) : Prop := ∀ m, n.Has m → m.WellFormed

theorem wellBuilt_iff (n : Node) : n.WellBuilt ↔ n.WellFormed ∧ ∀ m ∈ n.parts, m.WellBuilt := by
  constructor
  · intro h
    exact ⟨h n (.self n), fun p hp m hm => h m (.within hp hm)⟩
  · rintro ⟨hn, hparts⟩ m hm
    cases hm with
    | self => exact hn
    | within hp hm => exact hparts _ hp m hm

end Node

open Node

/-- Annotations are well-formed constants. -/
def Const.ListWellBuilt (cs : List Const) : Prop := ∀ c ∈ cs, (Node.const c).WellBuilt

namespace Category

/-- The node that a phrase is, without annotations. -/
def node : (s : Category) → s.Tree → Node
  | .const, c => .const c
  | .pattern, p => .pattern p
  | .expr, e => .expr (.plain e)

def elementNode : (s : Category) → s.Element → Node
  | .const, c => .const c
  | .pattern, p => .pattern p
  | .expr, e => .expr e

theorem node_const (c : Const) : node .const c = .const c := rfl

theorem node_pattern (p : Pattern) : node .pattern p = .pattern p := rfl

theorem node_expr (e : Expr) : node .expr e = .expr (.plain e) := rfl

theorem elementNode_const (c : Const) : elementNode .const c = .const c := rfl

theorem elementNode_pattern (p : Pattern) : elementNode .pattern p = .pattern p := rfl

theorem elementNode_expr (e : Ann Expr) : elementNode .expr e = .expr e := rfl

end Category

/-- What a form writes is well formed at every depth. -/
def Form.WellBuilt : (f : Form) → f.Tree → Prop
  | .annotated f, a => f.WellBuilt a.node ∧ Const.ListWellBuilt a.annotations
  | .stripped f, x => f.WellBuilt x
  | .closing, cs => Const.ListWellBuilt cs
  | .items f, xs => xs ≠ [] ∧ ∀ x ∈ xs, f.WellBuilt x
  | .sequence f _, xs | .run f _, xs => ∀ x ∈ xs, f.WellBuilt x
  | .var, v => (Node.var v).WellBuilt
  | .literal, l => (Node.literal l).WellBuilt
  | .base s, x | .bare s, x => (s.node x).WellBuilt
  | .element s, x | .tail s, x => (s.elementNode x).WellBuilt
  | .cells s, c => (s.node (s.list c.1 c.2)).WellBuilt
  | .constSegment, s => (Node.constSegment s).WellBuilt
  | .constPair, p => (Node.constPair p).WellBuilt
  | .varList, vs => ∀ v ∈ vs, (Node.var v).WellBuilt
  | .patterns, ps => ∀ p ∈ ps, (Node.pattern p).WellBuilt
  | .patternSegment, s => (Node.patternSegment s).WellBuilt
  | .patternPair, p => (Node.patternPair p).WellBuilt
  | .bareClause, c => (Node.clause (.plain c)).WellBuilt
  | .clause, c => (Node.clause c).WellBuilt
  | .definition, d => (Node.definition d).WellBuilt
  | .segment, s => (Node.segment s).WellBuilt
  | .mapPair, p => (Node.mapPair p).WellBuilt
  | .mapBody, b => (Node.expr (.plain (.map b.1 b.2))).WellBuilt
  | .arguments, es => ∀ e ∈ es, (Node.expr e).WellBuilt
  | .attribute, a => (Node.const a.2).WellBuilt
  | .module, m => (Node.unit (.plain m)).WellBuilt
  | .atom, _ | .funName, _ | .mapOp, _ => True

/-! ## Annotations -/

theorem Node.wellBuilt_expr_iff {e : Ann Expr} :
    (Node.expr e).WellBuilt ↔
      (Node.expr (.plain e.node)).WellBuilt ∧ Const.ListWellBuilt e.annotations := by
  obtain ⟨e, cs⟩ := e
  rw [wellBuilt_iff, wellBuilt_iff (.expr (.plain e))]
  have hwellFormed : (Node.expr ⟨e, cs⟩).WellFormed ↔ (Node.expr (.plain e)).WellFormed := by
    cases e <;> rfl
  simp only [hwellFormed, parts, Ann.plain, Const.ListWellBuilt, List.forall_mem_append,
    List.forall_mem_map, List.map_nil, List.append_nil, and_assoc]

theorem Node.wellBuilt_clause_iff {c : Ann Clause} :
    (Node.clause c).WellBuilt ↔
      (Node.clause (.plain c.node)).WellBuilt ∧ Const.ListWellBuilt c.annotations := by
  rw [wellBuilt_iff, wellBuilt_iff (.clause (.plain c.node))]
  simp only [WellFormed, parts, Ann.plain, Const.ListWellBuilt, List.forall_mem_append,
    List.forall_mem_map, List.map_nil, List.append_nil, and_assoc]

theorem Node.wellBuilt_unit_iff {m : Ann Module} :
    (Node.unit m).WellBuilt ↔
      (Node.unit (.plain m.node)).WellBuilt ∧ Const.ListWellBuilt m.annotations := by
  rw [wellBuilt_iff, wellBuilt_iff (.unit (.plain m.node))]
  simp only [WellFormed, parts, Ann.plain, Const.ListWellBuilt, List.forall_mem_append,
    List.forall_mem_map, List.map_nil, List.append_nil, and_assoc]

theorem Node.wellBuilt_definition {name : FunName} {params : List String} {body : Ann Expr}
    {cs annotations : List Const} (h : (Node.expr ⟨.lambda params body, cs⟩).WellBuilt)
    (hannotations : Const.ListWellBuilt annotations) :
    (Node.definition ⟨⟨name, ⟨.lambda params body, cs⟩⟩, annotations⟩).WellBuilt := by
  rw [wellBuilt_iff]
  refine ⟨⟨params, body, cs, rfl⟩, List.forall_mem_cons.2 ⟨h, ?_⟩⟩
  exact List.forall_mem_map.2 hannotations

theorem Node.wellBuilt_nil : (Node.literal .nil).WellBuilt :=
  (wellBuilt_iff _).2 ⟨trivial, List.forall_mem_nil _⟩

theorem MapOp.symbol_eq (op : MapOp) : op.symbol = "=>" ∨ op.symbol = ":=" := by
  cases op <;> decide

/-! ## Phrases of all categories -/

namespace Category

variable {s : Category}

theorem wellBuilt_lit {l : Literal} :
    (s.node (s.lit l)).WellBuilt ↔ (Node.literal l).WellBuilt := by
  rw [wellBuilt_iff]
  cases s <;>
    simp only [node, lit, WellFormed, parts, Const.parts, Pattern.parts, Expr.parts, Ann.plain,
      List.map_nil, List.append_nil, List.forall_mem_singleton, true_and]

theorem wellBuilt_tuple {xs : List s.Element} :
    (s.node (s.tuple xs)).WellBuilt ↔ ∀ x ∈ xs, (s.elementNode x).WellBuilt := by
  rw [wellBuilt_iff]
  cases s <;>
    simp only [node, elementNode, tuple, WellFormed, parts, Const.parts, Pattern.parts, Expr.parts,
      Ann.plain, List.map_nil, List.append_nil, List.forall_mem_map, true_and]

theorem wellBuilt_list {xs : List s.Element} {tail : Option s.Element} :
    (s.node (s.list xs tail)).WellBuilt ↔ xs ≠ [] ∧ (∀ x ∈ xs, (s.elementNode x).WellBuilt) ∧
      ∀ x ∈ tail.toList, (s.elementNode x).WellBuilt := by
  rw [wellBuilt_iff]
  cases s <;>
    simp only [node, elementNode, list, WellFormed, parts, Const.parts, Pattern.parts, Expr.parts,
      Ann.plain, List.map_nil, List.append_nil, List.forall_mem_append, List.forall_mem_map]

theorem wellBuilt_keep {a : Ann s.Tree} (h : (s.node a.node).WellBuilt)
    (hannotations : Const.ListWellBuilt a.annotations) : (s.elementNode (s.keep a)).WellBuilt := by
  cases s with
  | const | pattern => exact h
  | expr => exact wellBuilt_expr_iff.2 ⟨h, hannotations⟩

end Category

/-! ## Trees that are written -/

/-- The text of a variable or of a character is a lexeme. -/
def Token.Lexical (t : Token) : Prop :=
  ∀ k, k = .var ∨ k = .char → t.kind = k → t.text.toList ∈ Lexeme.language (some k)

theorem Token.Denotes.wellBuilt {t : Token} {l : Literal} (h : t.Denotes l) (ht : t.Lexical) :
    (Node.literal l).WellBuilt := by
  rw [wellBuilt_iff]
  refine ⟨?_, List.forall_mem_nil _⟩
  cases h with
  | char hk => exact ht .char (.inr rfl) hk
  | atom | integer | float | string => trivial

theorem Token.Lexical.wellBuilt {t : Token} (ht : t.Lexical) (hk : t.kind = .var) :
    (Node.var t.text).WellBuilt := by
  rw [wellBuilt_iff]
  exact ⟨ht .var (.inl rfl) hk, List.forall_mem_nil _⟩

/-- What is written with whole lexemes is well formed at every depth. -/
theorem Writes.wellBuilt {f : Form} {ts rest : List Token} {x : f.Tree} (h : Writes f ts x rest)
    (hts : ∀ t ∈ ts, t.Lexical) : f.WellBuilt x ∧ ∀ t ∈ rest, t.Lexical := by
  -- The tokens that follow a part are lexical too, for the part that comes next.
  induction h
  all_goals simp only [Form.WellBuilt, Const.ListWellBuilt, Category.node_const,
    Category.node_pattern, Category.node_expr, Category.elementNode_const,
    Category.elementNode_pattern, Category.elementNode_expr, List.forall_mem_cons] at *
  case literal hl => exact ⟨hl.wellBuilt hts.1, hts.2⟩
  case varName hk => exact ⟨hts.1.wellBuilt hk, hts.2⟩
  case lit ih => exact ⟨Category.wellBuilt_lit.2 (ih hts).1, (ih hts).2⟩
  case nil => exact ⟨Category.wellBuilt_lit.2 wellBuilt_nil, hts.2.2⟩
  case tuple ih => exact ⟨Category.wellBuilt_tuple.2 (ih hts.2).1, (ih hts.2).2⟩
  case element ih => exact ⟨Category.wellBuilt_keep (ih hts).1.1 (ih hts).1.2, (ih hts).2⟩
  case baseTail ih => exact ⟨Category.wellBuilt_keep (ih hts).1 (List.forall_mem_nil _), (ih hts).2⟩
  case parensTail ih ih' =>
    obtain ⟨⟨hnode, hannotations⟩, hmid⟩ := ih hts.2
    obtain ⟨hcs, hrest⟩ := ih' hmid
    exact ⟨Category.wellBuilt_keep hnode (List.forall_mem_append.2 ⟨hannotations, hcs⟩), hrest⟩
  case clause ih => exact ih hts
  case parensClause ih ih' =>
    obtain ⟨hclause, hmid⟩ := ih hts.2
    obtain ⟨hcs, hrest⟩ := ih' hmid
    exact ⟨wellBuilt_clause_iff.2 ⟨hclause, hcs⟩, hrest⟩
  case definition ih' ih =>
    obtain ⟨⟨-, hannotations⟩, -, hmid⟩ := ih hts
    obtain ⟨hfunction, hrest⟩ := ih' hmid
    exact ⟨wellBuilt_definition hfunction hannotations, hrest⟩
  case proper | improper | merged =>
    simp_all only [Category.wellBuilt_list, List.forall_mem_append, Option.toList_none,
      Option.toList_some, List.not_mem_nil, IsEmpty.forall_iff, List.forall_mem_cons, implies_true,
      and_self, ne_eq, not_false_eq_true, List.append_eq_nil_iff]
  -- Rows, names and annotations are no nodes. What is in them is that of their parts.
  case plain | parens | stripped | closed | annotations | one | more | empty | filled | stop | go
      | atom | funName | put | update | base | list | onePattern | manyPatterns | oneVar | manyVars
      | arguments | attributePair | map =>
    simp_all only [Ann.plain, List.not_mem_nil, IsEmpty.forall_iff, List.forall_mem_append,
      implies_true, and_self, ne_eq, reduceCtorEq, not_false_eq_true, true_and]
  all_goals rw [wellBuilt_iff]
  case patternVar hk | var hk | aliased hk _ _ _ =>
    have hname := hts.1.wellBuilt hk
    simp_all only [WellFormed, parts, Expr.parts, Pattern.parts, Ann.plain, List.forall_mem_cons,
      List.not_mem_nil, IsEmpty.forall_iff, List.map_nil, List.append_nil, implies_true, and_self]
  -- The parts of any other node are what the production reads.
  all_goals simp only [WellFormed, MapOp.symbol_eq, parts, Const.parts, Pattern.parts, Expr.parts,
    Ann.plain, List.forall_mem_append, List.forall_mem_map, List.map_nil, List.map_append,
    Option.toList_none, Option.toList_some, List.forall_mem_cons, List.not_mem_nil,
    IsEmpty.forall_iff, List.append_nil, implies_true, true_and, and_true, ne_eq, reduceCtorEq,
    not_false_eq_true]
  all_goals simp_all only [implies_true, and_self, true_and]

/-! ## Trees that are read -/

theorem TokenStream.Scans.lexical {o : Nat} {cs : List Char} {ts : List Token} (h : Scans o cs ts) :
    ∀ t ∈ ts, t.Lexical := by
  intro t ht k hk hkind
  obtain ⟨cs', spelling, rest, hfirst, hmeaning, -⟩ := h.exists_lexeme ht
  rw [hkind] at hfirst hmeaning
  have hspelling : String.ofList spelling = t.text := by
    rcases hk with rfl | rfl <;> exact Except.ok.inj hmeaning
  rw [← hspelling, String.toList_ofList]
  exact (Scanner.munches_ofKind k).mem (Lexeme.ofKind_of_first? hfirst)

/-- Every node of a tree that is read from a text is well formed, at whatever depth it is and
whatever nesting is followed. -/
theorem nodes_of_readText_wellFormed (limit : Nat) (file : Option String) (text : String) :
    (∀ m, readText (moduleOfTokens limit) file text = .ok m →
      ∀ n, (Node.unit m).Has n → n.WellFormed) ∧
    (∀ e, readText (exprOfTokens limit) file text = .ok e →
      ∀ n, (Node.expr e).Has n → n.WellFormed) := by
  constructor
  · intro m hm
    obtain ⟨stream, hstream, hparse⟩ := readText_eq_ok.1 hm
    have hlexical := (tokensOfText_eq_ok.1 hstream).1.lexical
    exact wellBuilt_unit_iff.2 ((moduleOfTokens_sound hparse).wellBuilt hlexical).1
  · intro e he
    obtain ⟨stream, hstream, hparse⟩ := readText_eq_ok.1 he
    have hlexical := (tokensOfText_eq_ok.1 hstream).1.lexical
    exact wellBuilt_expr_iff.2 ((exprOfTokens_sound hparse).wellBuilt hlexical).1

/-- A case with a list in a pattern and a character in a body. -/
def Expr.clauseOfCells : Ann Expr :=
  .plain (.caseOf (.plain (.var "X"))
    [.plain ⟨[.list [.var "Y"] (some (.var "_Z@"))], .plain (.lit (.atom "true")),
      .plain (.lit (.char "$\\^b"))⟩])

/-- A name in a pattern and a character with a caret, both below a clause. -/
theorem nodes_of_readText_wellFormed_clause :
    readText (exprOfTokens 3) none "case X of [Y|_Z@] when 'true' -> $\\^b end" =
        .ok Expr.clauseOfCells ∧
      (Node.expr Expr.clauseOfCells).Has (.var "_Z@") ∧ (Node.var "_Z@").WellFormed ∧
      (Node.expr Expr.clauseOfCells).Has (.literal (.char "$\\^b")) ∧
      (Node.literal (.char "$\\^b")).WellFormed := by
  have hwords : wordsOfText "case X of [Y|_Z@] when 'true' -> $\\^b end" =
      some [.keyword "case", ⟨.var, "X"⟩, .keyword "of", .mark "[", ⟨.var, "Y"⟩, .mark "|",
        ⟨.var, "_Z@"⟩, .mark "]", .keyword "when", ⟨.atom, "true"⟩, .mark "->", ⟨.char, "$\\^b"⟩,
        .keyword "end"] := by
    decide +kernel
  have hread := (Reading.ofWords (c := .phrase .expr) (d := 3) hwords Expr.clauseOfCells rfl).read
  have hvar : (Node.expr Expr.clauseOfCells).Has (.var "_Z@") :=
    .within (.tail _ (.head _)) (.within (.head _)
      (.within (p := .pattern (.var "_Z@")) (.tail _ (.head _)) (.within (.head _) (.self _))))
  have hchar : (Node.expr Expr.clauseOfCells).Has (.literal (.char "$\\^b")) :=
    .within (.tail _ (.head _)) (.within (.tail _ (.tail _ (.head _)))
      (.within (.head _) (.self _)))
  have h := (nodes_of_readText_wellFormed 3 none _).2 _ hread
  exact ⟨hread, hvar, h _ hvar, hchar, h _ hchar⟩

end CallGraph
