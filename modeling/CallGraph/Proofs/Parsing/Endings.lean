import CallGraph.Proofs.Parsing.Steady

/-!
Where phrases end. A parser that takes all of the tokens takes the same of them if more tokens
follow, unless the next one makes the phrase longer: a slash after an expression, an equals sign after
a pattern. How deeply the text nests does not matter here, the parsers of every level do so.
-/

namespace CallGraph

namespace Parser

variable {α β : Type} {digits : Nat} {fine fine' : List Token → Prop} {p q : Parser α}
  {f : α → Parser β} {s : String}

/-- A parser that does the same if fine tokens follow. It may take nothing. -/
def Extends (fine : List Token → Prop) (p : Parser α) : Prop :=
  ∀ ⦃ts x rest⦄, p ts = .ok (x, rest) →
    ∀ ⦃more⦄, (rest = [] → fine more) → p (ts ++ more) = .ok (x, rest ++ more)

theorem Extends.pure (x : α) : Extends fine (Pure.pure x : Parser α) := by
  intro ts y rest h more _
  obtain ⟨rfl, rfl⟩ := pure_eq_ok.1 h
  rfl

/-- A case that is taken before fine tokens only if its symbol is there. -/
theorem Extends.onSymbol_pure (hp : Closes fine p) (hs : ∀ more, fine more → startsWith s more = false)
    (x : α) : Extends fine (Parser.onSymbol [(s, p)] (Pure.pure x)) := by
  intro ts y rest h more hmore
  rcases onSymbol_single_eq_ok.1 h with ⟨t, us, ht, rfl, hus⟩ | ⟨hno, hx⟩
  · exact onSymbol_single_eq_ok.2 (.inl ⟨t, us ++ more, ht, rfl, (hp hus).2 hmore⟩)
  · obtain ⟨rfl, rfl⟩ := pure_eq_ok.1 hx
    refine onSymbol_single_eq_ok.2 (.inr ⟨?_, rfl⟩)
    cases rest with
    | nil => exact hs more (hmore rfl)
    | cons t rest => exact hno

theorem Extends.bind_pure (hp : Extends fine p) (g : α → β) :
    Extends fine (p >>= fun x => Pure.pure (g x)) := by
  intro ts y rest h more hmore
  obtain ⟨x, _, hx, h⟩ := bind_eq_ok.1 h
  obtain ⟨rfl, rfl⟩ := pure_eq_ok.1 h
  exact bind_eq_ok.2 ⟨x, rest ++ more, hp hx hmore, rfl⟩

/-- By induction on the bound: each turn of the loop takes the comma and the item after it. -/
theorem prolongs_commaItems (hp : Closes fine p) (hsteady : Steady digits p)
    (hcomma : ∀ more, fine more → startsWith "," more = false) (n m : Nat) :
    Steady.Prolongs fine (commaItems p) n m := by
  -- Before tokens that begin with no comma the loop takes nothing.
  have hstop {ts : List Token} (hno : startsWith "," ts = false) (m : Nat) :
      commaItems p m ts = .ok ([], ts) := by
    cases m with
    | zero => rfl
    | succ m =>
      rw [commaItems, onSymbol_single, hno]
      rfl
  induction n generalizing m with
  | zero =>
    intro ts xs rest more hn h hmore _
    obtain rfl := List.eq_nil_of_length_eq_zero (Nat.le_zero.1 hn)
    obtain ⟨rfl, rfl⟩ := pure_eq_ok.1 h
    exact hstop (hcomma more (hmore rfl)) m
  | succ n ih =>
    intro ts xs rest more hn h hmore hm
    rw [commaItems, onSymbol_single_eq_ok] at h
    rcases h with ⟨c, us, hc, rfl, h⟩ | ⟨hno, h⟩
    · simp only [bind_eq_ok, pure_eq_ok] at h
      obtain ⟨x, mid, hx, ys, _, hys, rfl, rfl⟩ := h
      have hmid : mid = [] → fine more := fun hmid =>
        hmore (List.suffix_nil.1 (hmid ▸ (Steady.takes_commaItems hsteady.toTakes n).suffix hys))
      have hle := (hsteady.suffix hx).length_le
      cases m with
      | zero => simp at hm
      | succ m =>
        simp only [List.length_append, List.length_cons] at hn hm
        have hroom : (mid ++ more).length ≤ m := by rw [List.length_append]; omega
        rw [commaItems, onSymbol_single_eq_ok]
        refine .inl ⟨c, us ++ more, hc, rfl, ?_⟩
        simp only [bind_eq_ok]
        exact ⟨x, mid ++ more, (hp hx).2 hmid, ys, rest ++ more, ih m (by omega) hys hmore hroom, rfl⟩
    · obtain ⟨rfl, rfl⟩ := pure_eq_ok.1 h
      refine hstop ?_ m
      cases rest with
      | nil => exact hcomma more (hmore rfl)
      | cons t rest => exact hno

theorem Extends.commaItems (hp : Closes fine p) (hsteady : Steady digits p)
    (hcomma : ∀ more, fine more → startsWith "," more = false) :
    Extends fine (remaining >>= Parser.commaItems p) :=
  fun _ _ _ h _ hmore => prolongs_commaItems hp hsteady hcomma _ _ (Nat.le_refl _) h hmore
    (Nat.le_refl _)

namespace Closes

theorem mono (hp : Closes fine p) (h : ∀ more, fine' more → fine more) : Closes fine' p := by
  intro ts x rest hx
  obtain ⟨hts, hmore⟩ := hp hx
  exact ⟨hts, fun more hfine => hmore fun hrest => h more (hfine hrest)⟩

theorem of_ne_ok (h : ∀ ts r, p ts ≠ .ok r) : Closes fine p := fun ts _ _ hx => absurd hx (h ts _)

theorem fail (wanted : Expectation) : Closes fine (Parser.fail wanted : Parser α) :=
  of_ne_ok fun _ _ => fail_ne_ok

/-- What follows a symbol. -/
theorem expect_bind {f : Unit → Parser β} (hf : Closes fine (f ())) :
    Closes fine (Parser.expect s >>= f) := by
  intro ts y rest h
  obtain ⟨_, mid, hs, hy⟩ := bind_eq_ok.1 h
  obtain ⟨t, ht, rfl⟩ := expect_eq_ok.1 hs
  refine ⟨List.cons_ne_nil t mid, fun more hmore => bind_eq_ok.2 ?_⟩
  exact ⟨(), mid ++ more, expect_eq_ok.2 ⟨t, ht, rfl⟩, (hf hy).2 hmore⟩

theorem bind_pure (hp : Closes fine p) (g : α → β) : Closes fine (p >>= fun x => pure (g x)) := by
  rw [← map_eq_pure_bind]
  exact hp.map

/-- What was read is looked at, and perhaps refused. -/
theorem bind_check (hp : Closes fine p)
    (hf : ∀ x, (∃ y, f x = pure y) ∨ ∃ wanted, f x = Parser.fail wanted) : Closes fine (p >>= f) := by
  intro ts y rest h
  obtain ⟨x, mid, hx, hy⟩ := bind_eq_ok.1 h
  obtain ⟨hts, hmore⟩ := hp hx
  rcases hf x with ⟨z, hz⟩ | ⟨wanted, hwanted⟩
  · rw [hz] at hy
    obtain ⟨rfl, rfl⟩ := pure_eq_ok.1 hy
    refine ⟨hts, fun more hfine => bind_eq_ok.2 ⟨x, rest ++ more, hmore hfine, ?_⟩⟩
    rw [hz]
    rfl
  · rw [hwanted] at hy
    exact absurd hy fail_ne_ok

theorem onSymbol {cases : List (String × Parser α)} (hcases : ∀ c ∈ cases, Closes fine c.2)
    (hq : Closes fine q) : Closes fine (Parser.onSymbol cases q) := by
  intro ts x rest h
  cases ts with
  | nil => exact absurd rfl (hq h).1
  | cons t ts =>
    refine ⟨List.cons_ne_nil t ts, fun more hmore => ?_⟩
    rw [Parser.onSymbol] at h
    rw [List.cons_append, Parser.onSymbol]
    split at h
    next hfind => exact (hcases _ (List.mem_of_find?_eq_some hfind) h).2 hmore
    next => exact (hq h).2 hmore

theorem onSymbol_pure (x : α) (hq : Closes fine q) :
    Closes fine (Parser.onSymbol [(s, Pure.pure x)] q) := by
  intro ts y rest h
  rcases onSymbol_single_eq_ok.1 h with ⟨t, us, ht, rfl, hus⟩ | ⟨hno, hts⟩
  · obtain ⟨rfl, rfl⟩ := pure_eq_ok.1 hus
    refine ⟨List.cons_ne_nil t rest, fun more _ => onSymbol_single_eq_ok.2 ?_⟩
    exact .inl ⟨t, rest ++ more, ht, rfl, rfl⟩
  · obtain ⟨hne, hq'⟩ := hq hts
    refine ⟨hne, fun more hmore => onSymbol_single_eq_ok.2 ?_⟩
    exact .inr ⟨(startsWith_append hne).trans hno, hq' hmore⟩

theorem ite {b : Bool} (hp : Closes fine p) (hq : Closes fine q) :
    Closes fine (if b then p else q) := by
  cases b
  · exact hq
  · exact hp

/-- A way chosen by the next token is chosen again. -/
theorem peekOne {g : List Token → Bool} (hg : ∀ ts more, ts ≠ [] → g (ts ++ more) = g ts)
    (hp : Closes fine p) (hq : Closes fine q) : Closes fine (do if g (← get) then p else q) := by
  intro ts x rest h
  have hway : (if g ts then p else q) ts = .ok (x, rest) := h
  obtain ⟨hts, hmore⟩ := hp.ite hq hway
  refine ⟨hts, fun more hfine => ?_⟩
  change (if g (ts ++ more) then p else q) (ts ++ more) = _
  rw [hg ts more hts]
  exact hmore hfine

theorem onKeyword {cases : List (String × Parser α)} (hcases : ∀ c ∈ cases, Closes fine c.2)
    (hq : Closes fine q) : Closes fine (Parser.onKeyword cases q) :=
  peekOne (fun _ _ => startsWithName_append) (onSymbol hcases hq) hq

theorem expectKind (k : Kind) : Closes fine (Parser.expectKind k) := by
  intro ts x rest h
  obtain ⟨t, ht, hx, rfl⟩ := expectKind_eq_ok.1 h
  exact ⟨List.cons_ne_nil t rest, fun more _ => expectKind_eq_ok.2 ⟨t, ht, hx, rfl⟩⟩

theorem var?_bind {f : Option String → Parser β} (hsome : ∀ v, Extends fine (f (some v)))
    (hnone : Closes fine (f none)) : Closes fine (Parser.var? >>= f) := by
  intro ts y rest h
  obtain ⟨_, mid, hv, hy⟩ := bind_eq_ok.1 h
  rcases var?_eq_ok.1 hv with ⟨t, ht, rfl, rfl⟩ | ⟨rfl, rfl, hhead⟩
  · refine ⟨List.cons_ne_nil t mid, fun more hmore => bind_eq_ok.2 ?_⟩
    exact ⟨_, mid ++ more, var?_eq_ok.2 (.inl ⟨t, ht, rfl, rfl⟩), hsome _ hy hmore⟩
  · obtain ⟨hts, hy'⟩ := hnone hy
    refine ⟨hts, fun more hmore => bind_eq_ok.2 ⟨none, _, ?_, hy' hmore⟩⟩
    exact var?_eq_ok.2 (.inr ⟨rfl, rfl, by rwa [head?_append hts]⟩)

theorem literal?_bind {f : Option Literal → Parser β} (hsome : ∀ v, Extends fine (f (some v)))
    (hnone : Closes fine (f none)) : Closes fine (Parser.literal? digits >>= f) := by
  intro ts y rest h
  obtain ⟨_, mid, hv, hy⟩ := bind_eq_ok.1 h
  rcases literal?_eq_ok.1 hv with ⟨t, v, ht, rfl, rfl⟩ | ⟨rfl, rfl, hhead⟩
  · refine ⟨List.cons_ne_nil t mid, fun more hmore => bind_eq_ok.2 ?_⟩
    exact ⟨_, mid ++ more, literal?_eq_ok.2 (.inl ⟨t, v, ht, rfl, rfl⟩), hsome v hy hmore⟩
  · obtain ⟨hts, hy'⟩ := hnone hy
    refine ⟨hts, fun more hmore => bind_eq_ok.2 ⟨none, _, ?_, hy' hmore⟩⟩
    exact literal?_eq_ok.2 (.inr ⟨rfl, rfl, by rwa [head?_append hts]⟩)

theorem sequence (hp : Steady digits p) (close : String) : Closes fine (Parser.sequence p close) :=
  .onSymbol_pure [] (.bind hp.items fun xs => .expect close xs)

/-- Items with commas between them, before tokens that begin with no comma. -/
theorem items (hp : Closes fine p) (hsteady : Steady digits p)
    (hcomma : ∀ more, fine more → startsWith "," more = false) : Closes fine (Parser.items p) := by
  intro ts xs rest h
  obtain ⟨x, mid, hx, h⟩ := bind_eq_ok.1 h
  obtain ⟨hts, hx'⟩ := hp hx
  have htake := (Steady.commaItems hsteady).bind fun ys => Steady.pure (x :: ys)
  have hextend := (Extends.commaItems hp hsteady hcomma).bind_pure (x :: ·)
  rw [bind_assoc] at htake hextend
  refine ⟨hts, fun more hmore => bind_eq_ok.2 ⟨x, mid ++ more, hx' fun hmid => hmore ?_, ?_⟩⟩
  · exact List.suffix_nil.1 (hmid ▸ htake.suffix h)
  · exact hextend h hmore

end Closes

end Parser

open CallGraph.Parser

/-- The parsers of a level have nothing to add to a phrase, unless the next token makes it longer. -/
structure Level.Stops (l : Level) : Prop where
  const : Closes (fun _ => True) l.const
  atom : Closes (fun _ => True) l.atom
  var : Closes (fun _ => True) l.var
  funName : Closes (fun _ => True) l.funName
  pattern : Closes (Form.element .pattern).Ends l.pattern
  expr : Closes (Form.element .expr).Ends l.expr

namespace Level

variable {α β γ : Type} {fine : List Token → Prop} {l : Level} {digits : Nat}

/-! ## Constants -/

theorem closes_segment {value : Parser α} {modifier : Parser β}
    (hvalue : Parser.Steady digits value) (hmodifier : Parser.Steady digits modifier) :
    Closes fine (segment value modifier) :=
  .expect_bind <| .bind hvalue fun _ => .expect_bind <| .expect_bind <|
    (Closes.sequence hmodifier ")").bind_pure _

theorem closes_fullSegment {value : Parser α} {modifier : Parser β}
    (make : α → β → β → β → β → γ)
    (hvalue : Parser.Steady digits value) (hmodifier : Parser.Steady digits modifier) :
    Closes fine (fullSegment value modifier make) := by
  refine (closes_segment hvalue hmodifier).bind_check fun s => ?_
  obtain ⟨x, modifiers⟩ := s
  dsimp only
  split
  · exact .inl ⟨_, rfl⟩
  · exact .inr ⟨_, rfl⟩

theorem closes_bracketed {item : Parser α} (hitem : Parser.Steady digits item) (nil : β)
    (list : List α → Option α → β) : Closes fine (bracketed item nil list) := by
  rw [bracketed_eq]
  refine .onSymbol_pure nil ?_
  rw [← bind_assoc]
  exact (Closes.cells hitem).bind_pure fun c => list c.1 c.2

theorem closes_bareFunName (l : Level) : Closes fine l.bareFunName := by
  intro ts x rest h
  simp only [bareFunName, bind_eq_ok, expectKind_eq_ok, expect_eq_ok, converted_eq_ok,
    pure_eq_ok] at h ⊢
  obtain ⟨_, _, ⟨a, ha, rfl, rfl⟩, _, _, ⟨s, hs, rfl⟩, _, _, ⟨n, hn, rfl, rfl⟩, i, _, ⟨hi, rfl⟩, rfl,
    rfl⟩ := h
  exact ⟨List.cons_ne_nil _ _, fun more _ => ⟨_, _, ⟨a, ha, rfl, rfl⟩, (), _, ⟨s, hs, rfl⟩, _, _,
    ⟨n, hn, rfl, rfl⟩, i, _, ⟨hi, rfl⟩, rfl, rfl⟩⟩

section

variable (hl : l.Steady)

include hl

theorem closes_annotated {inner : Parser (Ann α)} {bare : Parser α}
    (hinner : Parser.Steady l.digits inner) (hbare : Closes fine bare) :
    Closes fine (l.annotated inner bare) :=
  .onSymbol_one (.bind hinner fun _ => (closes_closing hl).bind_pure _) hbare.map

theorem closes_constSegment : Closes fine l.constSegment :=
  (closes_segment (steady_constant hl) (steady_constant hl)).bind_pure fun s => s.1 :: s.2

theorem closes_bareConst : Closes fine l.bareConst := by
  refine .literal?_bind (fun _ => .pure _) (.onSymbol ?_ (.fail _))
  simp only [constCases, List.forall_mem_cons]
  exact ⟨(Closes.sequence (steady_constant hl) _).map, closes_bracketed (steady_constant hl) _ _,
    (Closes.sequence (steady_constSegment hl) _).map, (Closes.sequence (steady_constPair hl) _).map,
    List.forall_mem_nil _⟩

theorem closes_patternSegment : Closes fine l.patternSegment :=
  closes_fullSegment _ (steady_plainPattern hl) hl.expr

theorem closes_exprSegment : Closes fine l.exprSegment := closes_fullSegment _ hl.expr hl.expr

theorem closes_arguments : Closes fine l.arguments :=
  .expect_bind <| .sequence hl.expr ")"

theorem closes_clauses (stop : String) : Closes fine (l.clauses stop) := by
  rw [clauses, ← bind_assoc]
  exact .bind (steady_clauseRun hl stop) fun cs => .expect stop cs

theorem closes_mapBody : Closes fine l.mapBody :=
  .bind (steady_mapPairs hl) fun _ => .bind (steady_mapBase hl) fun _ => .expect _ _

end

section

variable (hl : l.Steady) (hs : l.Stops)

theorem closes_constant (hs : l.Stops) : Closes (fun _ => True) l.constant :=
  hs.const.bind_pure Ann.node

theorem closes_variableName (hs : l.Stops) : Closes (fun _ => True) l.variableName :=
  hs.var.bind_pure Ann.node

theorem closes_plainPattern (hs : l.Stops) : Closes (Form.element .pattern).Ends l.plainPattern :=
  hs.pattern.bind_pure Ann.node

include hl hs

theorem closes_constPair : Closes (fun _ => True) l.constPair :=
  .bind (steady_constant hl) fun _ => .bind (steady_mapOp : Parser.Steady l.digits _) fun _ =>
    (closes_constant hs).bind_pure _

/-! ## Variables and patterns -/

theorem closes_varList : Closes (fun _ => True) l.varList :=
  .onSymbol_one (.sequence (steady_variableName hl) ">") ((closes_variableName hs).bind_pure _)

theorem closes_patternPair : Closes (Form.element .pattern).Ends l.patternPair :=
  .bind hl.expr fun _ => .expect_bind <| (closes_plainPattern hs).bind_pure _

theorem closes_barePattern : Closes (Form.element .pattern).Ends l.barePattern := by
  refine .var?_bind (fun v => ?_) (.literal?_bind (fun _ => .pure _) (.onSymbol ?_ (.fail _)))
  · exact .onSymbol_pure (closes_plainPattern hs).map (fun more h => h "=" (by decide)) _
  · simp only [patternCases, List.forall_mem_cons]
    have hpattern := steady_plainPattern hl
    exact ⟨closes_bracketed hpattern _ _, (Closes.sequence hpattern _).map,
      (Closes.sequence (steady_patternSegment hl) _).map,
      (Closes.sequence (steady_patternPair hl) _).map, List.forall_mem_nil _⟩

/-! ## Clauses and definitions -/

theorem closes_clauseRest (ps : List Pattern) :
    Closes (Form.element .expr).Ends (l.clauseRest ps) :=
  .expect_bind <| .bind hl.expr fun _ => .expect_bind <| hs.expr.bind_pure _

theorem closes_plainClause : Closes (Form.element .expr).Ends l.plainClause :=
  .bind (steady_patterns hl) fun ps => (closes_clauseRest hl hs ps).bind_pure _

theorem closes_clause : Closes (Form.element .expr).Ends l.clause := by
  intro ts x rest h
  cases hparen : startsWith "(" ts with
  | false =>
    rw [clause_plain hparen] at h
    obtain ⟨hts, hmore⟩ := closes_plainClause hl hs h
    refine ⟨hts, fun more hfine => ?_⟩
    rw [clause_plain ((startsWith_append hts).trans hparen)]
    exact hmore hfine
  | true =>
    obtain ⟨o, us, ho, rfl⟩ := startsWith_iff.1 hparen
    refine ⟨List.cons_ne_nil o us, fun more hfine => ?_⟩
    rw [clause_paren ho] at h
    rw [List.cons_append, clause_paren ho]
    cases hps : l.patterns us with
    | error e => rw [hps] at h; cases h
    | ok r =>
      obtain ⟨ps, mid⟩ := r
      rw [hps, Except.bind] at h
      -- The patterns are followed by a token on both ways, so that the same way is taken.
      cases hwhen : startsWith "when" mid with
      | true =>
        rw [if_pos hwhen] at h
        have hwrapped : Closes (Form.element .expr).Ends (l.wrappedClause ps) :=
          .bind (steady_clauseRest hl ps) fun _ => (closes_closing hl).bind_pure _
        obtain ⟨hmid, hmore⟩ := hwrapped h
        rw [(steady_patterns hl).extend hps hmid more, Except.bind,
          if_pos ((startsWith_append hmid).trans hwhen)]
        exact hmore hfine
      | false =>
        rw [if_neg (Bool.eq_false_iff.1 hwhen)] at h
        obtain ⟨qs, mid', hqs, -⟩ := bind_eq_ok.1 h
        have hmid := patterns_ne_nil hl ho hps hqs
        have hwhen' : startsWith "when" (mid ++ more) = false :=
          (startsWith_append hmid).trans hwhen
        rw [(steady_patterns hl).extend hps hmid more, Except.bind,
          if_neg (Bool.eq_false_iff.1 hwhen')]
        exact (closes_plainClause hl hs h).2 hfine

theorem closes_definition : Closes (Form.element .expr).Ends l.definition := by
  refine .bind hl.funName fun _ => .expect_bind <| hs.expr.bind_check fun function => ?_
  split
  · exact .inl ⟨_, rfl⟩
  · exact .inr ⟨_, rfl⟩

/-! ## Expressions -/

theorem closes_mapPair : Closes (Form.element .expr).Ends l.mapPair :=
  .bind hl.expr fun _ => .bind (steady_mapOp : Parser.Steady l.digits _) fun _ =>
    hs.expr.bind_pure _

theorem closes_of_mem_keywordCases :
    ∀ c ∈ l.keywordCases, Closes (Form.element .expr).Ends c.2 := by
  have hvars := steady_varList hl
  have hlambda : Closes (Form.element .expr).Ends l.lambda :=
    .expect_bind <| .bind ((steady_variableName hl).sequence (by decide)) fun _ =>
      .expect_bind <| hs.expr.bind_pure _
  have hletRec : Closes (Form.element .expr).Ends l.letRec :=
    .bind (steady_definitions hl (by decide)) fun _ => hs.expr.bind_pure _
  have hcaseOf : Closes (Form.element .expr).Ends l.caseOf :=
    .bind hl.expr fun _ => .expect_bind <| (closes_clauses hl _).bind_pure _
  have hreceive : Closes (Form.element .expr).Ends l.receive :=
    .bind (steady_clauses hl (by decide)) fun _ => .bind hl.expr fun _ =>
      .expect_bind <| hs.expr.bind_pure _
  have happly : Closes (Form.element .expr).Ends l.apply :=
    .bind hl.expr fun _ => (closes_arguments hl).bind_pure _
  have hcall : Closes (Form.element .expr).Ends l.call :=
    .bind hl.expr fun _ => .expect_bind <| .bind hl.expr fun _ =>
      (closes_arguments hl).bind_pure _
  have hprimop : Closes (Form.element .expr).Ends l.primop :=
    .bind hl.atom fun _ => (closes_arguments hl).bind_pure _
  have htryOf : Closes (Form.element .expr).Ends l.tryOf :=
    .bind hl.expr fun _ => .expect_bind <| .bind hvars fun _ => .expect_bind <|
      .bind hl.expr fun _ => .expect_bind <| .bind hvars fun _ => .expect_bind <|
        hs.expr.bind_pure _
  simp only [keywordCases, List.forall_mem_cons]
  exact ⟨hlambda, hletRec, hcaseOf, hreceive, happly, hcall, hprimop, htryOf, hs.expr.map,
    List.forall_mem_nil _⟩

omit hs in
theorem closes_of_mem_exprCases : ∀ c ∈ l.exprCases, Closes (Form.element .expr).Ends c.2 := by
  simp only [exprCases, List.forall_mem_cons]
  exact ⟨closes_bracketed hl.expr _ _, (Closes.sequence hl.expr _).map,
    (Closes.sequence hl.expr _).map, (Closes.sequence (steady_exprSegment hl) _).map,
    closes_mapBody hl, List.forall_mem_nil _⟩

theorem closes_compoundExpr : Closes (Form.element .expr).Ends l.compoundExpr := by
  rw [compoundExpr, bindingChain_eq]
  exact .peekOne (fun _ _ => opensChain_append) ((closes_chain hl hs.expr).bind_pure Ann.node)
    (.onKeyword (closes_of_mem_keywordCases hl hs) (.onSymbol (closes_of_mem_exprCases hl) (.fail _)))

theorem closes_otherExpr : Closes (Form.element .expr).Ends l.otherExpr :=
  .literal?_bind (fun _ => .pure _) (closes_compoundExpr hl hs)

/-- A slash would make an atom the name of a function. -/
theorem closes_bareExpr : Closes (Form.element .expr).Ends l.bareExpr := by
  refine .var?_bind (fun _ => .pure _) fun ts x rest h => ?_
  have hway : (if opensFunName ts then (do return Expr.funRef (← l.bareFunName)) else l.otherExpr)
      ts = .ok (x, rest) := h
  have hfunRef : Closes (Form.element .expr).Ends (do return Expr.funRef (← l.bareFunName)) :=
    (closes_bareFunName l).bind_pure _
  obtain ⟨hts, hmore⟩ := hfunRef.ite (closes_otherExpr hl hs) hway
  refine ⟨hts, fun more hfine => ?_⟩
  have hopens : opensFunName (ts ++ more) = opensFunName ts := by
    match ts, hts, hway with
    | [t], _, hway =>
      -- One token is not enough for the name of a function, so that no token is left over.
      have hrest : rest = [] := List.length_eq_zero_iff.1
        (Nat.lt_one_iff.1 (length_lt_of_otherExpr hl (by simpa [opensFunName, startsWith] using hway)))
      calc opensFunName ([t] ++ more) = (t.kind == .atom && startsWith "/" more) := rfl
        _ = opensFunName [t] := by rw [hfine hrest "/" (by decide)]; rfl
    | _ :: _ :: _, _, _ => rfl
  change (if opensFunName (ts ++ more) then (do return Expr.funRef (← l.bareFunName))
    else l.otherExpr) (ts ++ more) = _
  rw [hopens]
  exact hmore hfine

/-! ## Attributes and levels -/

theorem closes_attributePair : Closes (fun _ => True) l.attributePair :=
  .bind hl.atom fun _ => .expect_bind <| (closes_constant hs).bind_pure _

theorem next_stops : l.next.Stops where
  const := closes_annotated hl hl.const (closes_bareConst hl)
  atom := closes_annotated hl hl.atom (.expectKind .atom)
  var := closes_annotated hl hl.var (.expectKind .var)
  funName := closes_annotated hl hl.funName (closes_bareFunName l)
  pattern := closes_annotated hl hl.pattern (closes_barePattern hl hs)
  expr := closes_annotated hl hl.expr (closes_bareExpr hl hs)

end

/-- Whatever follows the bracket at the end of a header does not belong to it. -/
theorem closes_header (hl : l.Steady) : Closes fine l.header := by
  have hname : Parser.Steady l.digits (expectKind .atom) := .expectKind (by decide)
  exact .expect_bind <| .bind hname fun _ => .expect_bind <|
    .bind ((steady_export hl).sequence (by decide)) fun _ => .expect_bind <| .expect_bind <|
      (Closes.sequence (steady_attributePair hl) "]").bind_pure _

theorem ofDepth_stops (digits depth : Nat) : (ofDepth digits depth).Stops := by
  induction depth with
  | zero =>
    have hdeep {α : Type} {fine : List Token → Prop} : Closes fine (tooDeep : Parser α) :=
      .of_ne_ok fun ts _ => tooDeep_ne_ok ts
    exact ⟨hdeep, hdeep, hdeep, hdeep, hdeep, hdeep⟩
  | succ depth ih => exact next_stops (ofDepth_steady digits depth) ih

end Level

end CallGraph
