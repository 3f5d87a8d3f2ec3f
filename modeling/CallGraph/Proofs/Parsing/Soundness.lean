import CallGraph.Proofs.Grammar

/-!
Parsers find only what the grammar writes, whatever the level of nesting. Each parser is shown to
read the form that it is meant for, given that the parsers of the level below do.
-/

namespace CallGraph

open CallGraph.Parser

/-- What the parser gives for some tokens is what they write as this form. -/
def Form.Sound (f : Form) (p : Parser f.Tree) : Prop :=
  ∀ ⦃ts x rest⦄, p ts = .ok (x, rest) → Writes f ts x rest

variable {f : Form} {s : Category} {l : Level} {ts us mid rest : List Token}

/-! ## Rows -/

/-- A row goes on from its first item, which is already read. -/
theorem commaItems_sound {item : Parser f.Tree} (hitem : f.Sound item) {n : Nat} {x : f.Tree}
    {xs : List f.Tree} (hx : Writes f us x ts) (h : commaItems item n ts = .ok (xs, rest)) :
    Writes (.items f) us (x :: xs) rest := by
  induction n generalizing us ts x xs with
  | zero =>
    simp only [commaItems, pure_eq_ok] at h
    obtain ⟨rfl, rfl⟩ := h
    exact .one hx
  | succ n ih =>
    rw [commaItems, onSymbol_single_eq_ok] at h
    rcases h with ⟨c, mid, hc, rfl, h⟩ | ⟨-, h⟩
    · simp only [bind_eq_ok, pure_eq_ok] at h
      obtain ⟨y, mid', hy, ys, mid'', hys, rfl, rfl⟩ := h
      exact .more hx hc (ih (hitem hy) hys)
    · simp only [pure_eq_ok] at h
      obtain ⟨rfl, rfl⟩ := h
      exact .one hx

theorem items_sound {item : Parser f.Tree} (hitem : f.Sound item) :
    (Form.items f).Sound (items item) := by
  intro ts xs rest h
  simp only [items, bind_eq_ok, remaining_eq_ok, pure_eq_ok] at h
  obtain ⟨x, mid, hx, n, mid', ⟨rfl, rfl⟩, ys, mid'', hys, rfl, rfl⟩ := h
  exact commaItems_sound hitem (hitem hx) hys

theorem sequence_sound {item : Parser f.Tree} (hitem : f.Sound item) (close : String) :
    (Form.sequence f close).Sound (sequence item close) := by
  intro ts xs rest h
  rw [Parser.sequence, onSymbol_single_eq_ok] at h
  rcases h with ⟨c, mid, hc, rfl, h⟩ | ⟨-, h⟩
  · simp only [pure_eq_ok] at h
    obtain ⟨rfl, rfl⟩ := h
    exact .empty hc
  · simp only [bind_eq_ok, expect_eq_ok, pure_eq_ok] at h
    obtain ⟨xs, mid, hxs, -, mid', ⟨c, hc, rfl⟩, rfl, rfl⟩ := h
    exact .filled (items_sound hitem hxs) hc

theorem itemsBefore_sound {item : Parser f.Tree} (hitem : f.Sound item) {stop : String} {n : Nat}
    {xs : List f.Tree} {c : Token} (hc : c.is stop)
    (h : itemsBefore item stop n ts = .ok (xs, c :: rest)) :
    Writes (.run f stop) ts xs rest := by
  induction n generalizing ts xs with
  | zero =>
    simp only [itemsBefore, bind_eq_ok, ahead_eq_ok] at h
    obtain ⟨b, mid, ⟨rfl, rfl⟩, h⟩ := h
    split at h
    · simp only [pure_eq_ok] at h
      obtain ⟨rfl, rfl⟩ := h
      exact .stop hc
    · simp only [bind_eq_ok, pure_eq_ok] at h
      obtain ⟨x, mid', hx, rfl, rfl⟩ := h
      exact .go (hitem hx) (.stop hc)
  | succ n ih =>
    simp only [itemsBefore, bind_eq_ok, ahead_eq_ok] at h
    obtain ⟨b, mid, ⟨rfl, rfl⟩, h⟩ := h
    split at h
    · simp only [pure_eq_ok] at h
      obtain ⟨rfl, rfl⟩ := h
      exact .stop hc
    · simp only [bind_eq_ok, pure_eq_ok] at h
      obtain ⟨x, mid', hx, ys, mid'', hys, rfl, rfl⟩ := h
      exact .go (hitem hx) (ih hys)

/-! ## Lists -/

/-- An element that does not open a list with elements is a tail of its own. -/
theorem Writes.tail_of_element {x : s.Element} (h : Writes (.element s) ts x rest)
    (hopen : opensCells ts = false) : Writes (.tail s) ts x rest := by
  cases h with
  | element h =>
    cases h with
    | parens ho ha hc => exact .parensTail ho ha hc
    | plain h =>
      cases h with
      | base h => exact .baseTail h
      | list ho hcells =>
        have hclose := hcells.begins.startsWith_eq_false (s := "]") (by
          cases s <;> decide)
        simp [opensCells, ho, hclose] at hopen

theorem cells_sound {item : Parser s.Element} (hitem : (Form.element s).Sound item) (n : Nat) :
    (Form.cells s).Sound (cells item n) := by
  intro ts c rest h
  induction n generalizing ts c rest with
  | zero =>
    simp only [cells, bind_eq_ok, expect_eq_ok, pure_eq_ok] at h
    obtain ⟨xs, mid, hxs, -, mid', ⟨c, hc, rfl⟩, rfl, rfl⟩ := h
    exact .proper (items_sound hitem hxs) hc
  | succ n ih =>
    simp only [cells, bind_eq_ok, accept_eq_ok] at h
    obtain ⟨xs, mid, hxs, bar, mid', ⟨rfl, b, hb, rfl⟩ | ⟨rfl, -, rfl⟩, h⟩ := h
    · simp only [if_true, bind_eq_ok, get_eq_ok] at h
      obtain ⟨us, mid'', ⟨rfl, rfl⟩, h⟩ := h
      cases hopen : opensCells mid'' with
      | true =>
        simp only [hopen, if_true, bind_eq_ok, expect_eq_ok, pure_eq_ok] at h
        obtain ⟨-, mid, ⟨o, ho, rfl⟩, ys, mid', hys, -, mid'', ⟨c, hc, rfl⟩, rfl, rfl⟩ := h
        exact .merged (items_sound hitem hxs) hb ho (ih hys) hc
      | false =>
        simp only [hopen, Bool.false_eq_true, if_false, bind_eq_ok, expect_eq_ok, pure_eq_ok] at h
        obtain ⟨x, mid, hx, -, mid', ⟨c, hc, rfl⟩, rfl, rfl⟩ := h
        have htail := (hitem hx).tail_of_element hopen
        exact .improper (items_sound hitem hxs) hb htail hc
    · simp only [Bool.false_eq_true, if_false, bind_eq_ok, expect_eq_ok, pure_eq_ok] at h
      obtain ⟨-, mid, ⟨c, hc, rfl⟩, rfl, rfl⟩ := h
      exact .proper (items_sound hitem hxs) hc

/-- What follows an open bracket is a list, empty or not. -/
theorem bracketed_sound {item : Parser s.Element} (hitem : (Form.element s).Sound item)
    {o : Token} {x : s.Tree} (ho : o.is "[")
    (h : Level.bracketed item (s.lit .nil) s.list ts = .ok (x, rest)) :
    Writes (.bare s) (o :: ts) x rest := by
  rw [Level.bracketed_eq, onSymbol_single_eq_ok] at h
  rcases h with ⟨c, mid, hc, rfl, h⟩ | ⟨-, h⟩
  · simp only [pure_eq_ok] at h
    obtain ⟨rfl, rfl⟩ := h
    exact .base (.nil ho hc)
  · simp only [bind_eq_ok, remaining_eq_ok, pure_eq_ok] at h
    obtain ⟨n, mid, ⟨rfl, rfl⟩, c, mid', hc, rfl, rfl⟩ := h
    exact .list ho (cells_sound hitem _ hc)

/-! ## Parentheses -/

/-- What the parsers of a level read. -/
structure Level.Sound (l : Level) : Prop where
  const : (Form.annotated (.bare .const)).Sound l.const
  atom : (Form.annotated .atom).Sound l.atom
  var : (Form.annotated .var).Sound l.var
  funName : (Form.annotated .funName).Sound l.funName
  pattern : (Form.annotated (.bare .pattern)).Sound l.pattern
  expr : (Form.annotated (.bare .expr)).Sound l.expr
  unit : (Form.annotated .module).Sound l.unit

namespace Level

theorem constant_sound (hl : l.Sound) : (Form.element .const).Sound l.constant := by
  intro ts x rest h
  simp only [constant, bind_eq_ok, pure_eq_ok] at h
  obtain ⟨a, mid, ha, rfl, rfl⟩ := h
  exact .element (hl.const ha)

theorem plainPattern_sound (hl : l.Sound) : (Form.element .pattern).Sound l.plainPattern := by
  intro ts x rest h
  simp only [plainPattern, bind_eq_ok, pure_eq_ok] at h
  obtain ⟨a, mid, ha, rfl, rfl⟩ := h
  exact .element (hl.pattern ha)

theorem expr_sound (hl : l.Sound) : (Form.element .expr).Sound l.expr :=
  fun _ _ _ h => .element (hl.expr h)

theorem variableName_sound (hl : l.Sound) : (Form.stripped .var).Sound l.variableName := by
  intro ts x rest h
  simp only [variableName, bind_eq_ok, pure_eq_ok] at h
  obtain ⟨a, mid, ha, rfl, rfl⟩ := h
  exact .stripped (hl.var ha)

theorem closing_sound (hl : l.Sound) : Form.closing.Sound l.closing := by
  intro ts cs rest h
  simp only [closing, annotations, bind_eq_ok, onSymbol_single_eq_ok, expect_eq_ok, pure_eq_ok] at h
  obtain ⟨ds, mid, hds, -, mid', ⟨c, hc, rfl⟩, rfl, rfl⟩ := h
  rcases hds with ⟨b, us, hb, rfl, -, us', ⟨o, ho, rfl⟩, hseq⟩ | ⟨-, rfl, rfl⟩
  · exact .annotations hb ho (sequence_sound (constant_sound hl) _ hseq) hc
  · exact .closed hc

theorem annotated_sound (hl : l.Sound) {inner : Parser (Ann f.Tree)} {bare : Parser f.Tree}
    (hinner : (Form.annotated f).Sound inner) (hbare : f.Sound bare) :
    (Form.annotated f).Sound (l.annotated inner bare) := by
  intro ts a rest h
  simp only [annotated, onSymbol_single_eq_ok, bind_eq_ok, pure_eq_ok, map_eq_ok] at h
  rcases h with ⟨o, us, ho, rfl, x, mid, hx, cs, mid', hcs, rfl, rfl⟩ | ⟨-, x, hx, rfl⟩
  · exact .parens ho (hinner hx) (closing_sound hl hcs)
  · exact .plain (hbare hx)

/-! ## Constants -/

theorem mapOp_sound : Form.mapOp.Sound mapOp := by
  intro ts op rest h
  rcases of_onSymbol_eq_ok h with ⟨t, us, c, hc, ht, rfl, h⟩ | ⟨-, h⟩
  · simp only [List.mem_cons, List.not_mem_nil, or_false] at hc
    rcases hc with rfl | rfl
    · simp only [pure_eq_ok] at h
      obtain ⟨rfl, rfl⟩ := h
      exact .put ht
    · simp only [pure_eq_ok] at h
      obtain ⟨rfl, rfl⟩ := h
      exact .update ht
  · simp at h

theorem constSegment_sound (hl : l.Sound) : Form.constSegment.Sound l.constSegment := by
  intro ts cs rest h
  simp only [constSegment, bind_eq_ok, pure_eq_ok] at h
  obtain ⟨⟨value, ms⟩, _, hseg, rfl, rfl⟩ := h
  obtain ⟨o, c, p, us, mid, ho, hc, hp, rfl, hvalue, hms⟩ := segment_eq_ok.1 hseg
  exact .constSegment ho (constant_sound hl hvalue) hc hp
    (sequence_sound (constant_sound hl) _ hms)

theorem constPair_sound (hl : l.Sound) : Form.constPair.Sound l.constPair := by
  intro ts pair rest h
  simp only [constPair, bind_eq_ok, pure_eq_ok] at h
  obtain ⟨key, _, hkey, op, _, hop, value, _, hvalue, rfl, rfl⟩ := h
  exact .constPair (constant_sound hl hkey) (mapOp_sound hop) (constant_sound hl hvalue)

theorem bareConst_sound (hl : l.Sound) : (Form.bare .const).Sound l.bareConst := by
  intro ts x rest h
  simp only [bareConst, bind_eq_ok, literal?_eq_ok] at h
  obtain ⟨_, mid, ⟨t, value, ht, rfl, rfl⟩ | ⟨rfl, rfl, -⟩, h⟩ := h
  · simp only [pure_eq_ok] at h
    obtain ⟨rfl, rfl⟩ := h
    exact .base (.lit (.literal (Token.denotes_of_literal? ht)))
  · rcases of_onSymbol_eq_ok h with ⟨o, us, c, hc, ho, rfl, h⟩ | ⟨-, h⟩
    · simp only [constCases, List.mem_cons, List.not_mem_nil, or_false] at hc
      rcases hc with rfl | rfl | rfl | rfl
      · obtain ⟨xs, hxs, rfl⟩ := map_eq_ok.1 h
        exact .base (.tuple ho (sequence_sound (constant_sound hl) _ hxs))
      · exact bracketed_sound (constant_sound hl) ho h
      · obtain ⟨xs, hxs, rfl⟩ := map_eq_ok.1 h
        exact .base (.constBinary ho (sequence_sound (constSegment_sound hl) _ hxs))
      · obtain ⟨xs, hxs, rfl⟩ := map_eq_ok.1 h
        exact .base (.constMap ho (sequence_sound (constPair_sound hl) _ hxs))
    · simp at h

/-! ## Names and variables -/

theorem bareFunName_sound : Form.funName.Sound l.bareFunName := by
  intro ts name rest h
  simp only [bareFunName, bind_eq_ok, expectKind_eq_ok, expect_eq_ok, converted_eq_ok,
    pure_eq_ok] at h
  obtain ⟨_, _, ⟨a, ha, rfl, rfl⟩, -, _, ⟨s, hs, rfl⟩, _, _, ⟨n, hn, rfl, rfl⟩, arity, _,
    ⟨harity, rfl⟩, rfl, rfl⟩ := h
  rw [Numeral.integer] at harity
  split at harity
  · cases harity
  · cases harity
    exact .funName ha hs hn

theorem varList_sound (hl : l.Sound) : Form.varList.Sound l.varList := by
  intro ts vs rest h
  simp only [varList, onSymbol_single_eq_ok, bind_eq_ok, pure_eq_ok] at h
  rcases h with ⟨o, us, ho, rfl, h⟩ | ⟨-, v, mid, hv, rfl, rfl⟩
  · exact .manyVars ho (sequence_sound (variableName_sound hl) _ h)
  · exact .oneVar (variableName_sound hl hv)

/-! ## Patterns -/

theorem patterns_sound (hl : l.Sound) : Form.patterns.Sound l.patterns := by
  intro ts ps rest h
  simp only [patterns, onSymbol_single_eq_ok, bind_eq_ok, pure_eq_ok] at h
  rcases h with ⟨o, us, ho, rfl, h⟩ | ⟨-, p, mid, hp, rfl, rfl⟩
  · exact .manyPatterns ho (sequence_sound (plainPattern_sound hl) _ h)
  · exact .onePattern (plainPattern_sound hl hp)

theorem patternSegment_sound (hl : l.Sound) : Form.patternSegment.Sound l.patternSegment := by
  intro ts x rest h
  obtain ⟨pattern, size, unit, type, flags, hseg, rfl⟩ := fullSegment_eq_ok.1 h
  obtain ⟨o, c, p, us, mid, ho, hc, hp, rfl, hpattern, hms⟩ := segment_eq_ok.1 hseg
  exact .patternSegment ho (plainPattern_sound hl hpattern) hc hp
    (sequence_sound (expr_sound hl) _ hms)

theorem patternPair_sound (hl : l.Sound) : Form.patternPair.Sound l.patternPair := by
  intro ts x rest h
  simp only [patternPair, bind_eq_ok, expect_eq_ok, pure_eq_ok] at h
  obtain ⟨key, _, hkey, -, _, ⟨c, hc, rfl⟩, p, _, hp, rfl, rfl⟩ := h
  exact .patternPair (expr_sound hl hkey) hc (plainPattern_sound hl hp)

theorem barePattern_sound (hl : l.Sound) : (Form.bare .pattern).Sound l.barePattern := by
  intro ts x rest h
  simp only [barePattern, bind_eq_ok, var?_eq_ok] at h
  obtain ⟨_, mid, ⟨v, hv, rfl, rfl⟩ | ⟨rfl, rfl, -⟩, h⟩ := h
  · simp only [onSymbol_single_eq_ok, map_eq_ok, pure_eq_ok] at h
    rcases h with ⟨e, us, he, rfl, p, hp, rfl⟩ | ⟨-, rfl, rfl⟩
    · exact .base (.aliased hv he (plainPattern_sound hl hp))
    · exact .base (.patternVar hv)
  simp only [bind_eq_ok, literal?_eq_ok] at h
  obtain ⟨_, mid, ⟨t, value, ht, rfl, rfl⟩ | ⟨rfl, rfl, -⟩, h⟩ := h
  · simp only [pure_eq_ok] at h
    obtain ⟨rfl, rfl⟩ := h
    exact .base (.lit (.literal (Token.denotes_of_literal? ht)))
  · rcases of_onSymbol_eq_ok h with ⟨o, us, c, hc, ho, rfl, h⟩ | ⟨-, h⟩
    · simp only [patternCases, List.mem_cons, List.not_mem_nil, or_false] at hc
      rcases hc with rfl | rfl | rfl | rfl
      · exact bracketed_sound (plainPattern_sound hl) ho h
      · obtain ⟨xs, hxs, rfl⟩ := map_eq_ok.1 h
        exact .base (.tuple ho (sequence_sound (plainPattern_sound hl) _ hxs))
      · obtain ⟨xs, hxs, rfl⟩ := map_eq_ok.1 h
        exact .base (.patternBinary ho (sequence_sound (patternSegment_sound hl) _ hxs))
      · obtain ⟨xs, hxs, rfl⟩ := map_eq_ok.1 h
        exact .base (.patternMap ho (sequence_sound (patternPair_sound hl) _ hxs))
    · simp at h

/-! ## Clauses and definitions -/

theorem clauseRest_sound (hl : l.Sound) {ps : List Pattern} {c : Clause}
    (hps : Writes .patterns us ps ts) (h : l.clauseRest ps ts = .ok (c, rest)) :
    Writes .bareClause us c rest := by
  simp only [clauseRest, bind_eq_ok, expect_eq_ok, pure_eq_ok] at h
  obtain ⟨-, _, ⟨w, hw, rfl⟩, guard, _, hguard, -, _, ⟨a, ha, rfl⟩, body, _, hbody, rfl, rfl⟩ := h
  exact .bareClause hps hw (expr_sound hl hguard) ha (expr_sound hl hbody)

theorem clause_sound (hl : l.Sound) : Form.clause.Sound l.clause := by
  intro ts x rest h
  simp only [clause, bind_eq_ok, get_eq_ok, accept_eq_ok] at h
  obtain ⟨start, _, ⟨rfl, rfl⟩, _, mid, ⟨rfl, o, ho, rfl⟩ | ⟨rfl, -, rfl⟩, h⟩ := h
  · simp only [if_true, bind_eq_ok, ahead_eq_ok] at h
    obtain ⟨ps, _, hps, _, mid', ⟨rfl, rfl⟩, h⟩ := h
    split at h
    · simp only [bind_eq_ok, pure_eq_ok] at h
      obtain ⟨c, _, hc, cs, _, hcs, rfl, rfl⟩ := h
      exact .parensClause ho (clauseRest_sound hl (patterns_sound hl hps) hc) (closing_sound hl hcs)
    · simp only [bind_eq_ok, set_eq_ok, pure_eq_ok] at h
      obtain ⟨-, _, rfl, qs, _, hqs, c, _, hc, rfl, rfl⟩ := h
      exact .clause (clauseRest_sound hl (patterns_sound hl hqs) hc)
  · simp only [Bool.false_eq_true, if_false, bind_eq_ok, pure_eq_ok] at h
    obtain ⟨ps, _, hps, c, _, hc, rfl, rfl⟩ := h
    exact .clause (clauseRest_sound hl (patterns_sound hl hps) hc)

theorem clauses_sound (hl : l.Sound) (stop : String) :
    (Form.run .clause stop).Sound (l.clauses stop) := by
  intro ts cs rest h
  simp only [clauses, bind_eq_ok, remaining_eq_ok, expect_eq_ok, pure_eq_ok] at h
  obtain ⟨n, _, ⟨rfl, rfl⟩, xs, _, hxs, -, _, ⟨c, hc, rfl⟩, rfl, rfl⟩ := h
  exact itemsBefore_sound (clause_sound hl) hc hxs

theorem definition_sound (hl : l.Sound) : Form.definition.Sound l.definition := by
  intro ts x rest h
  simp only [definition, bind_eq_ok, expect_eq_ok] at h
  obtain ⟨name, _, hname, -, _, ⟨e, he, rfl⟩, ⟨node, annotations⟩, _, hfunction, h⟩ := h
  cases node with
  | lambda params body =>
    simp only [pure_eq_ok] at h
    obtain ⟨rfl, rfl⟩ := h
    exact .definition (hl.funName hname) he (expr_sound hl hfunction)
  | _ => exact absurd h fail_ne_ok

theorem definitions_sound (hl : l.Sound) (stop : String) :
    (Form.run .definition stop).Sound (l.definitions stop) := by
  intro ts ds rest h
  simp only [definitions, bind_eq_ok, remaining_eq_ok, expect_eq_ok, pure_eq_ok] at h
  obtain ⟨n, _, ⟨rfl, rfl⟩, xs, _, hxs, -, _, ⟨c, hc, rfl⟩, rfl, rfl⟩ := h
  exact itemsBefore_sound (definition_sound hl) hc hxs

/-! ## Expressions -/

theorem exprSegment_sound (hl : l.Sound) : Form.segment.Sound l.exprSegment := by
  intro ts x rest h
  obtain ⟨value, size, unit, type, flags, hseg, rfl⟩ := fullSegment_eq_ok.1 h
  obtain ⟨o, c, p, us, mid, ho, hc, hp, rfl, hvalue, hms⟩ := segment_eq_ok.1 hseg
  exact .segment ho (expr_sound hl hvalue) hc hp (sequence_sound (expr_sound hl) _ hms)

theorem mapPair_sound (hl : l.Sound) : Form.mapPair.Sound l.mapPair := by
  intro ts x rest h
  simp only [mapPair, bind_eq_ok, pure_eq_ok] at h
  obtain ⟨key, _, hkey, op, _, hop, value, _, hvalue, rfl, rfl⟩ := h
  exact .mapPair (expr_sound hl hkey) (mapOp_sound hop) (expr_sound hl hvalue)

theorem mapPairs_sound (hl : l.Sound) {pairs : List MapPair}
    (h : l.mapPairs ts = .ok (pairs, rest)) :
    (pairs = [] ∧ rest = ts) ∨ Writes (.items .mapPair) ts pairs rest := by
  simp only [mapPairs, bind_eq_ok, ahead_eq_ok] at h
  obtain ⟨_, _, ⟨rfl, rfl⟩, _, _, ⟨rfl, rfl⟩, h⟩ := h
  split at h
  · exact .inl (pure_eq_ok.1 h)
  · exact .inr (items_sound (mapPair_sound hl) h)

theorem mapBody_sound (hl : l.Sound) {o : Token} {e : Expr} (ho : o.is "~\x7b")
    (h : l.mapBody ts = .ok (e, rest)) : Writes (.base .expr) (o :: ts) e rest := by
  simp only [mapBody, bind_eq_ok, onSymbol_single_eq_ok, map_eq_ok, expect_eq_ok, pure_eq_ok] at h
  obtain ⟨pairs, mid, hpairs, base, _, hbase, -, _, ⟨c, hc, rfl⟩, rfl, rfl⟩ := h
  rcases mapPairs_sound hl hpairs with ⟨rfl, rfl⟩ | hpairs
  · rcases hbase with ⟨b, us, hb, rfl, e, he, rfl⟩ | ⟨-, rfl, rfl⟩
    · exact .map ho (.sameMap hb (expr_sound hl he) hc)
    · exact .map ho (.emptyMap hc)
  · rcases hbase with ⟨b, us, hb, rfl, e, he, rfl⟩ | ⟨-, rfl, rfl⟩
    · exact .map ho (.changedMap hpairs hb (expr_sound hl he) hc)
    · exact .map ho (.newMap hpairs hc)

theorem arguments_sound (hl : l.Sound) : Form.arguments.Sound l.arguments := by
  intro ts args rest h
  simp only [arguments, bind_eq_ok, expect_eq_ok] at h
  obtain ⟨-, _, ⟨o, ho, rfl⟩, h⟩ := h
  exact .arguments ho (sequence_sound (expr_sound hl) _ h)

theorem bindingThen_sound (hl : l.Sound) {body : Parser (Ann Expr)}
    (hbody : (Form.element .expr).Sound body) {k : Token} {e : Expr} (hk : k.IsKeyword "let")
    (h : l.bindingThen body ts = .ok (e, rest)) : Writes (.base .expr) (k :: ts) e rest := by
  simp only [bindingThen, bind_eq_ok, expect_eq_ok, pure_eq_ok] at h
  obtain ⟨vars, _, hvars, -, _, ⟨e, he, rfl⟩, value, _, hvalue, -, _, ⟨i, hi, rfl⟩, b, _, hb, rfl,
    rfl⟩ := h
  exact .letIn hk (varList_sound hl hvars) he (expr_sound hl hvalue) hi (hbody hb)

theorem stepThen_sound (hl : l.Sound) {next : Parser (Ann Expr)}
    (hnext : (Form.element .expr).Sound next) {k : Token} {e : Expr} (hk : k.IsKeyword "do")
    (h : l.stepThen next ts = .ok (e, rest)) : Writes (.base .expr) (k :: ts) e rest := by
  simp only [stepThen, bind_eq_ok, pure_eq_ok] at h
  obtain ⟨first, _, hfirst, e, _, he, rfl, rfl⟩ := h
  exact .seq hk (expr_sound hl hfirst) (hnext he)

theorem chain_sound (hl : l.Sound) (n : Nat) : (Form.element .expr).Sound (l.chain n) := by
  induction n with
  | zero => exact expr_sound hl
  | succ n ih =>
    intro ts a rest h
    rcases of_onKeyword_eq_ok h with ⟨k, us, c, hc, hk, rfl, h⟩ | ⟨-, h⟩
    · simp only [List.mem_cons, List.not_mem_nil, or_false] at hc
      rcases hc with rfl | rfl
      · obtain ⟨e, he, rfl⟩ := map_eq_ok.1 h
        exact .element (.plain (.base (bindingThen_sound hl ih hk he)))
      · obtain ⟨e, he, rfl⟩ := map_eq_ok.1 h
        exact .element (.plain (.base (stepThen_sound hl ih hk he)))
    · exact expr_sound hl h

theorem lambda_sound (hl : l.Sound) {k : Token} {e : Expr} (hk : k.IsKeyword "fun")
    (h : l.lambda ts = .ok (e, rest)) : Writes (.base .expr) (k :: ts) e rest := by
  simp only [lambda, bind_eq_ok, expect_eq_ok, pure_eq_ok] at h
  obtain ⟨-, _, ⟨o, ho, rfl⟩, params, _, hparams, -, _, ⟨a, ha, rfl⟩, body, _, hbody, rfl, rfl⟩ := h
  exact .lambda hk ho (sequence_sound (variableName_sound hl) _ hparams) ha (expr_sound hl hbody)

theorem letRec_sound (hl : l.Sound) {k : Token} {e : Expr} (hk : k.IsKeyword "letrec")
    (h : l.letRec ts = .ok (e, rest)) : Writes (.base .expr) (k :: ts) e rest := by
  simp only [letRec, bind_eq_ok, pure_eq_ok] at h
  obtain ⟨ds, _, hds, body, _, hbody, rfl, rfl⟩ := h
  exact .letRec hk (definitions_sound hl _ hds) (expr_sound hl hbody)

theorem caseOf_sound (hl : l.Sound) {k : Token} {e : Expr} (hk : k.IsKeyword "case")
    (h : l.caseOf ts = .ok (e, rest)) : Writes (.base .expr) (k :: ts) e rest := by
  simp only [caseOf, bind_eq_ok, expect_eq_ok, pure_eq_ok] at h
  obtain ⟨subject, _, hsubject, -, _, ⟨o, ho, rfl⟩, cs, _, hcs, rfl, rfl⟩ := h
  exact .caseOf hk (expr_sound hl hsubject) ho (clauses_sound hl _ hcs)

theorem receive_sound (hl : l.Sound) {k : Token} {e : Expr} (hk : k.IsKeyword "receive")
    (h : l.receive ts = .ok (e, rest)) : Writes (.base .expr) (k :: ts) e rest := by
  simp only [receive, bind_eq_ok, expect_eq_ok, pure_eq_ok] at h
  obtain ⟨cs, _, hcs, timeout, _, htimeout, -, _, ⟨a, ha, rfl⟩, action, _, haction, rfl, rfl⟩ := h
  exact .receive hk (clauses_sound hl _ hcs) (expr_sound hl htimeout) ha (expr_sound hl haction)

theorem apply_sound (hl : l.Sound) {k : Token} {e : Expr} (hk : k.IsKeyword "apply")
    (h : l.apply ts = .ok (e, rest)) : Writes (.base .expr) (k :: ts) e rest := by
  simp only [apply, bind_eq_ok, pure_eq_ok] at h
  obtain ⟨function, _, hfunction, args, _, hargs, rfl, rfl⟩ := h
  exact .apply hk (expr_sound hl hfunction) (arguments_sound hl hargs)

theorem call_sound (hl : l.Sound) {k : Token} {e : Expr} (hk : k.IsKeyword "call")
    (h : l.call ts = .ok (e, rest)) : Writes (.base .expr) (k :: ts) e rest := by
  simp only [call, bind_eq_ok, expect_eq_ok, pure_eq_ok] at h
  obtain ⟨unit, _, hunit, -, _, ⟨c, hc, rfl⟩, function, _, hfunction, args, _, hargs, rfl, rfl⟩ := h
  exact .call hk (expr_sound hl hunit) hc (expr_sound hl hfunction) (arguments_sound hl hargs)

theorem primop_sound (hl : l.Sound) {k : Token} {e : Expr} (hk : k.IsKeyword "primop")
    (h : l.primop ts = .ok (e, rest)) : Writes (.base .expr) (k :: ts) e rest := by
  simp only [primop, bind_eq_ok, pure_eq_ok] at h
  obtain ⟨name, _, hname, args, _, hargs, rfl, rfl⟩ := h
  exact .primop hk (hl.atom hname) (arguments_sound hl hargs)

theorem tryOf_sound (hl : l.Sound) {k : Token} {e : Expr} (hk : k.IsKeyword "try")
    (h : l.tryOf ts = .ok (e, rest)) : Writes (.base .expr) (k :: ts) e rest := by
  simp only [tryOf, bind_eq_ok, expect_eq_ok, pure_eq_ok] at h
  obtain ⟨body, _, hbody, -, _, ⟨o, ho, rfl⟩, vars, _, hvars, -, _, ⟨a, ha, rfl⟩, success, _,
    hsuccess, -, _, ⟨c, hc, rfl⟩, handlerVars, _, hhandlerVars, -, _, ⟨a', ha', rfl⟩, handler, _,
    hhandler, rfl, rfl⟩ := h
  exact .tryOf hk (expr_sound hl hbody) ho (varList_sound hl hvars) ha (expr_sound hl hsuccess) hc
    (varList_sound hl hhandlerVars) ha' (expr_sound hl hhandler)

/-- What follows a keyword goes on with it to an expression. -/
theorem headCases_sound (hl : l.Sound) {n : Nat} {c : String × Parser Expr} (hc : c ∈ l.headCases n)
    {k : Token} {e : Expr} (hk : k.IsKeyword c.1) (h : c.2 ts = .ok (e, rest)) :
    Writes (.base .expr) (k :: ts) e rest := by
  simp only [headCases, keywordCases, List.mem_cons, List.not_mem_nil, or_false] at hc
  rcases hc with rfl | rfl | rfl | rfl | rfl | rfl | rfl | rfl | rfl | rfl | rfl
  · exact bindingThen_sound hl (chain_sound hl n) hk h
  · exact stepThen_sound hl (chain_sound hl n) hk h
  · exact lambda_sound hl hk h
  · exact letRec_sound hl hk h
  · exact caseOf_sound hl hk h
  · exact receive_sound hl hk h
  · exact apply_sound hl hk h
  · exact call_sound hl hk h
  · exact primop_sound hl hk h
  · exact tryOf_sound hl hk h
  · obtain ⟨body, hbody, rfl⟩ := map_eq_ok.1 h
    exact .catching hk (expr_sound hl hbody)

/-- What follows an opening bracket goes on with it to an expression. -/
theorem exprCases_sound (hl : l.Sound) {c : String × Parser Expr} (hc : c ∈ l.exprCases) {o : Token}
    {e : Expr} (ho : o.is c.1) (h : c.2 ts = .ok (e, rest)) :
    Writes (.bare .expr) (o :: ts) e rest := by
  simp only [exprCases, List.mem_cons, List.not_mem_nil, or_false] at hc
  rcases hc with rfl | rfl | rfl | rfl | rfl
  · exact bracketed_sound (expr_sound hl) ho h
  · obtain ⟨xs, hxs, rfl⟩ := map_eq_ok.1 h
    exact .base (.tuple ho (sequence_sound (expr_sound hl) _ hxs))
  · obtain ⟨xs, hxs, rfl⟩ := map_eq_ok.1 h
    exact .base (.values ho (sequence_sound (expr_sound hl) _ hxs))
  · obtain ⟨xs, hxs, rfl⟩ := map_eq_ok.1 h
    exact .base (.binary ho (sequence_sound (exprSegment_sound hl) _ hxs))
  · exact .base (mapBody_sound hl ho h)

theorem compoundExpr_sound (hl : l.Sound) : (Form.bare .expr).Sound l.compoundExpr := by
  intro ts x rest h
  rw [compoundExpr_apply] at h
  rcases of_onKeyword_eq_ok h with ⟨k, us, c, hc, hk, rfl, hcase⟩ | ⟨-, h⟩
  · exact .base (headCases_sound hl hc hk hcase)
  · rcases of_onSymbol_eq_ok h with ⟨o, us, c, hc, ho, rfl, hcase⟩ | ⟨-, hfail⟩
    · exact exprCases_sound hl hc ho hcase
    · simp at hfail

theorem bareExpr_sound (hl : l.Sound) : (Form.bare .expr).Sound l.bareExpr := by
  intro ts x rest h
  simp only [bareExpr, bind_eq_ok, var?_eq_ok] at h
  obtain ⟨_, mid, ⟨v, hv, rfl, rfl⟩ | ⟨rfl, rfl, -⟩, h⟩ := h
  · obtain ⟨rfl, rfl⟩ := pure_eq_ok.1 h
    exact .base (.var hv)
  simp only [bind_eq_ok, get_eq_ok] at h
  obtain ⟨us, mid, ⟨rfl, rfl⟩, h⟩ := h
  split at h
  · simp only [bind_eq_ok, pure_eq_ok] at h
    obtain ⟨name, _, hname, rfl, rfl⟩ := h
    exact .base (.funRef (bareFunName_sound hname))
  simp only [bind_eq_ok, literal?_eq_ok] at h
  obtain ⟨_, mid', ⟨t, value, ht, rfl, rfl⟩ | ⟨rfl, rfl, -⟩, h⟩ := h
  · obtain ⟨rfl, rfl⟩ := pure_eq_ok.1 h
    exact .base (.lit (.literal (Token.denotes_of_literal? ht)))
  · exact compoundExpr_sound hl h

/-! ## Modules -/

theorem attributePair_sound (hl : l.Sound) : Form.attribute.Sound l.attributePair := by
  intro ts x rest h
  simp only [attributePair, bind_eq_ok, expect_eq_ok, pure_eq_ok] at h
  obtain ⟨key, _, hkey, -, _, ⟨e, he, rfl⟩, value, _, hvalue, rfl, rfl⟩ := h
  exact .attributePair (hl.atom hkey) he (constant_sound hl hvalue)

theorem bareModule_sound (hl : l.Sound) : Form.module.Sound l.bareModule := by
  have hexport : (Form.stripped .funName).Sound (do return (← l.funName).node) := by
    intro ts x rest h
    simp only [bind_eq_ok, pure_eq_ok] at h
    obtain ⟨a, _, ha, rfl, rfl⟩ := h
    exact .stripped (hl.funName ha)
  intro ts m rest h
  simp only [bareModule, bind_eq_ok, expect_eq_ok, expectKind_eq_ok, pure_eq_ok] at h
  obtain ⟨-, _, ⟨k, hk, rfl⟩, _, _, ⟨n, hn, rfl, rfl⟩, -, _, ⟨o, ho, rfl⟩, exports, _, hexports, -, _,
    ⟨a, ha, rfl⟩, -, _, ⟨o', ho', rfl⟩, attributes, _, hattributes, ds, _, hds, rfl, rfl⟩ := h
  exact .module hk hn ho (sequence_sound hexport _ hexports) ha ho'
    (sequence_sound (attributePair_sound hl) _ hattributes) (definitions_sound hl _ hds)

/-! ## Levels -/

theorem next_sound (hl : l.Sound) : l.next.Sound where
  const := annotated_sound hl hl.const (bareConst_sound hl)
  atom := annotated_sound hl hl.atom fun ts x rest h => by
    obtain ⟨t, ht, rfl, rfl⟩ := expectKind_eq_ok.1 h
    exact .atom ht
  var := annotated_sound hl hl.var fun ts x rest h => by
    obtain ⟨t, ht, rfl, rfl⟩ := expectKind_eq_ok.1 h
    exact .varName ht
  funName := annotated_sound hl hl.funName bareFunName_sound
  pattern := annotated_sound hl hl.pattern (barePattern_sound hl)
  expr := annotated_sound hl hl.expr (bareExpr_sound hl)
  unit := annotated_sound hl hl.unit (bareModule_sound hl)

/-- At every level the parsers find only what the grammar writes. -/
theorem ofDepth_sound (digits depth : Nat) : (ofDepth digits depth).Sound := by
  induction depth with
  | zero =>
    constructor
    all_goals
      intro ts x rest h
      exact absurd h (tooDeep_ne_ok ts)
  | succ depth ih => exact next_sound ih

end Level

theorem Parser.whole_eq_ok {α : Type} {p : Parser α} {x : α} :
    p.whole ts = .ok x ↔ p ts = .ok (x, []) := by
  rw [Parser.whole]
  split <;> simp_all

theorem exprOfTokens_sound {depth : Nat} {e : Ann Expr} (h : exprOfTokens depth ts = .ok e) :
    Writes (.annotated (.bare .expr)) ts e [] :=
  (Level.ofDepth_sound _ _).expr (Parser.whole_eq_ok.1 h)

theorem moduleOfTokens_sound {depth : Nat} {m : Ann Module} (h : moduleOfTokens depth ts = .ok m) :
    Writes (.annotated .module) ts m [] :=
  (Level.ofDepth_sound _ _).unit (Parser.whole_eq_ok.1 h)

end CallGraph
