import CallGraph.Proofs.Parsing.Nesting
import CallGraph.Proofs.Parsing.Parts

/-!
Straight-line code does not nest. One level above the one that reads the parts, all of these are read,
however many parts there are: bindings and first steps before an expression, cells of a list that are
written one inside the other, rows with commas, clauses, and definitions.
-/

namespace CallGraph

open CallGraph.Parser
open Word (mark keyword)

/-! ## Neighbouring levels -/

namespace Parser

variable {α : Type} {p q : Parser α} {ts : List Token} {r : α × List Token}

/-- What one parser reads, another one reads too that agrees with it as far as it goes. -/
theorem Agrees.read (h : ∀ n, Agrees True n id p q) (hp : p ts = .ok r) : q ts = .ok r := by
  rcases (h _ ts (Nat.lt_succ_self _)).eq Function.injective_id with hdeep | heq
  · rw [hp] at hdeep
    cases hdeep
  · rw [← heq, hp]

theorem remaining_bind (loop : Nat → Parser α) (ts : List Token) :
    (remaining >>= loop) ts = loop ts.length ts := rfl

/-- Any bound that is not less than the number of tokens will do. -/
theorem Unfelt.run {loop : Nat → Parser α} (h : Unfelt loop)
    (hr : (remaining >>= loop) ts = .ok r) {k : Nat} (hk : ts.length ≤ k) : loop k ts = .ok r := by
  obtain ⟨j, rfl⟩ := Nat.exists_eq_add_of_le hk
  rw [h]
  exact hr

end Parser

namespace Level

variable {α : Type} {l : Level} {digits d : Nat} {s : Category} {ts us rest : List Token}

theorem agrees_succ (digits d n : Nat) :
    (ofDepth digits d).Agrees True n .unchanged (ofDepth digits (d + 1)) := by
  have h := agrees_grow_add raises_next digits n d 1
  rwa [grow_next, grow_next] at h

theorem phrase_agrees (digits d : Nat) (s : Category) (n : Nat) :
    Parser.Agrees True n id ((ofDepth digits d).phrase s) ((ofDepth digits (d + 1)).phrase s) := by
  have h := agrees_succ digits d n
  cases s with
  | const =>
    refine h.constant.imp fun x y hxy => ?_
    rwa [Transform.unchanged_const, Transform.unchanged_const] at hxy
  | pattern =>
    refine h.plainPattern.imp fun x y hxy => ?_
    rwa [Transform.unchanged_pattern, Transform.unchanged_pattern] at hxy
  | expr => exact h.expr.imp fun x y hxy => Transform.ann_injective Transform.unchanged_expr hxy

theorem cells_agrees (digits d : Nat) (s : Category) (k n : Nat) :
    Parser.Agrees True n id (cells ((ofDepth digits d).phrase s) k)
      (cells ((ofDepth digits (d + 1)).phrase s) k) := by
  refine ((phrase_agrees digits d s n).cells k).imp fun x y hxy => ?_
  simpa using hxy

theorem chain_agrees (digits d k n : Nat) :
    Parser.Agrees True n id ((ofDepth digits d).chain k) ((ofDepth digits (d + 1)).chain k) :=
  ((agrees_succ digits d n).chain k).imp fun _ _ h =>
    Transform.ann_injective Transform.unchanged_expr h

theorem annotated_eq_ok_of_plain {inner : Parser (Ann α)} {bare : Parser α} {a : Ann α}
    (h : startsWith "(" ts = false) :
    l.annotated inner bare ts = .ok (a, rest) ↔ ∃ x, bare ts = .ok (x, rest) ∧ a = Ann.plain x := by
  rw [annotated, onSymbol_single, h]
  exact map_eq_ok

/-- What follows each opening symbol of a phrase. -/
def phraseCases (l : Level) : (s : Category) → List (String × Parser s.Tree)
  | .const => l.constCases
  | .pattern => l.patternCases
  | .expr => l.exprCases

/-- A phrase that begins with one of the symbols is read by the parser of the level below for this
symbol. -/
theorem phrase_next_eq_ok {a : String} {o : Token} {q : Parser s.Tree} (ho : o.is a)
    (hmem : (a, q) ∈ l.phraseCases s) {y : s.Element} :
    l.next.phrase s (o :: us) = .ok (y, rest) ↔
      ∃ x, q us = .ok (x, rest) ∧ y = s.keep (Ann.plain x) := by
  have hparen : startsWith "(" (o :: us) = false := by
    refine Token.is_eq_false ho ?_
    rintro rfl
    cases s <;> simp [phraseCases, constCases, patternCases, exprCases] at hmem
  cases s with
  | const =>
    simp only [phrase, constant, bind_eq_ok, next, annotated_eq_ok_of_plain hparen,
      bareConst_of_mem ho hmem, pure_eq_ok]
    grind [Category.keep]
  | pattern =>
    simp only [phrase, plainPattern, bind_eq_ok, next, annotated_eq_ok_of_plain hparen,
      barePattern_of_mem ho hmem, pure_eq_ok]
    grind [Category.keep]
  | expr =>
    simp only [phrase, next, annotated_eq_ok_of_plain hparen, bareExpr_of_mem ho hmem]
    rfl

/-! ## Bindings and first steps -/

theorem not_paren_of_chain {k : Token} (hk : k.IsKeyword "let" ∨ k.IsKeyword "do") :
    startsWith "(" (k :: us) = false := by
  rcases hk with hk | hk
  · exact Token.is_eq_false hk.is (by decide)
  · exact Token.is_eq_false hk.is (by decide)

/-- An expression that begins with a binding or a first step is read as a chain. -/
theorem bareExpr_eq_ok_of_chain {k : Token} {e : Expr}
    (hk : k.IsKeyword "let" ∨ k.IsKeyword "do") :
    l.bareExpr (k :: us) = .ok (e, rest) ↔
      l.chain (us.length + 1) (k :: us) = .ok (.plain e, rest) := by
  rcases hk with hk | hk
  · rw [bareExpr_of_keyword hk List.mem_cons_self, chain_of_let us.length hk, map_eq_ok]
    simp [Ann.plain]
  · rw [bareExpr_of_keyword hk (List.mem_cons_of_mem _ List.mem_cons_self),
      chain_of_do us.length hk, map_eq_ok]
    simp [Ann.plain]

/-- An expression that is read on its own is read as the end of a chain, at the same limit. If it
begins with bindings or first steps, these were those of the level below. -/
theorem chain_of_expr {a : Ann Expr} (h : (ofDepth digits d).expr ts = .ok (a, rest)) :
    (ofDepth digits d).chain ts.length ts = .ok (a, rest) := by
  cases ts with
  | nil => exact h
  | cons k us =>
    by_cases hk : k.IsKeyword "let" ∨ k.IsKeyword "do"
    · cases d with
      | zero => cases h
      | succ d =>
        obtain ⟨e, he, rfl⟩ := (annotated_eq_ok_of_plain (not_paren_of_chain hk)).1 h
        exact Agrees.read (chain_agrees digits d _) ((bareExpr_eq_ok_of_chain hk).1 he)
    · rw [List.length_cons, chain, onKeyword_eq_otherwise (by simpa using hk)]
      exact h

end Level

/-- A binding or a first step, of which the parts are read at the limit `d`. -/
inductive Head (d : Nat) where
  | letIn (vars : Reading d .varList) (value : Reading d (.phrase .expr))
  | step (first : Reading d (.phrase .expr))

namespace Head

variable {d : Nat}

def words : Head d → List Word
  | .letIn vars value =>
    keyword "let" :: (vars.words ++ mark "=" :: (value.words ++ [keyword "in"]))
  | .step first => keyword "do" :: first.words

/-- The expression that is made of a head and of what comes after it. -/
def before : Head d → Ann Expr → Ann Expr
  | .letIn vars value, body => .plain (.letIn vars.tree value.tree body)
  | .step first, next => .plain (.seq first.tree next)

/-- The tokens of a head begin with its keyword. -/
theorem begins {h : Head d} {ws : List Word} {ts rest : List Token}
    (hts : Spelled (h.words ++ ws) ts rest) :
    ∃ k us, ts = k :: us ∧ (k.IsKeyword "let" ∨ k.IsKeyword "do") := by
  cases h with
  | letIn vars value =>
    obtain ⟨k, us, hk, rfl, -⟩ := spelled_cons.1 hts
    exact ⟨k, us, rfl, .inl (Token.isKeyword_of_word hk)⟩
  | step first =>
    obtain ⟨k, us, hk, rfl, -⟩ := spelled_cons.1 hts
    exact ⟨k, us, rfl, .inr (Token.isKeyword_of_word hk)⟩

/-- One turn of the loop takes a head. -/
theorem finds (h : Head d) {ws : List Word} {a : Ann Expr}
    (hws : Finds (.element .expr) (remaining >>= (Level.ofDepth numeralLimit d).chain) ws a) :
    Finds (.element .expr) (remaining >>= (Level.ofDepth numeralLimit d).chain) (h.words ++ ws)
      (h.before a) := by
  have hloop := Level.unfelt_chain (Level.ofDepth_steady numeralLimit d)
  constructor
  · intro ts rest hts
    obtain ⟨k, us, rfl, hk | hk⟩ := begins hts
    · exact .symbol hk.is (by decide)
    · exact .symbol hk.is (by decide)
  · intro ts rest hts hends
    cases h with
    | letIn vars value =>
      simp only [words, List.cons_append, List.append_assoc, List.nil_append, spelled_cons,
        spelled_append] at hts
      obtain ⟨k, us, hk, rfl, _, hvars, e, m₁, he, rfl, _, hvalue, i, m₂, hi, rfl, hbody⟩ := hts
      have hi := Token.is_of_keyword hi
      have hvars' := vars.finds.reads hvars (.free rfl)
      have hvalue' := value.finds.reads hvalue (.symbol hi (by decide))
      have hroom : m₂.length ≤ us.length := by
        have h₁ := hvars.length_eq
        have h₂ := hvalue.length_eq
        simp only [List.length_cons] at h₁ h₂
        omega
      have hbody' := hloop.run (hws.reads hbody hends) hroom
      rw [remaining_bind, List.length_cons, Level.chain_of_let us.length (Token.isKeyword_of_word hk),
        map_eq_ok]
      refine ⟨_, ?_, rfl⟩
      simp only [Level.bindingThen, bind_eq_ok, expect_eq_ok]
      exact ⟨_, _, hvars', (), _, ⟨e, Token.is_of_mark he, rfl⟩, _, _, hvalue', (), _, ⟨i, hi, rfl⟩,
        _, _, hbody', rfl⟩
    | step first =>
      simp only [words, List.cons_append, spelled_cons, spelled_append] at hts
      obtain ⟨k, us, hk, rfl, mid, hfirst, hnext⟩ := hts
      have hfirst' := first.finds.reads hfirst (.begins (hws.begins hnext) (by decide))
      have hroom : mid.length ≤ us.length := by
        have hlength := hfirst.length_eq
        omega
      have hnext' := hloop.run (hws.reads hnext hends) hroom
      rw [remaining_bind, List.length_cons, Level.chain_of_do us.length (Token.isKeyword_of_word hk),
        map_eq_ok]
      refine ⟨_, ?_, rfl⟩
      simp only [Level.stepThen, bind_eq_ok]
      exact ⟨_, _, hfirst', _, _, hnext', rfl⟩

/-- The loop takes all the heads. -/
theorem finds_all (heads : List (Head d)) (body : Reading d (.phrase .expr)) :
    Finds (.element .expr) (remaining >>= (Level.ofDepth numeralLimit d).chain)
      (heads.flatMap words ++ body.words) (heads.foldr before body.tree) := by
  induction heads with
  | nil =>
    exact ⟨body.finds.begins, fun _ _ hts hends => Level.chain_of_expr (body.finds.reads hts hends)⟩
  | cons h heads ih =>
    rw [List.flatMap_cons, List.append_assoc]
    exact h.finds ih

end Head

/-- Heads and a body are an expression of the level above. -/
theorem Level.expr_of_heads {d : Nat} (heads : List (Head d)) (body : Reading d (.phrase .expr))
    {ts : List Token} (hts : Spelled (heads.flatMap Head.words ++ body.words) ts []) :
    (ofDepth numeralLimit (d + 1)).expr ts = .ok (heads.foldr Head.before body.tree, []) := by
  cases heads with
  | nil => exact Agrees.read (phrase_agrees numeralLimit d .expr) (body.finds.reads hts .nil)
  | cons h heads =>
    have hrun := (Head.finds_all (h :: heads) body).reads hts .nil
    rw [List.flatMap_cons, List.append_assoc] at hts
    obtain ⟨k, us, rfl, hk⟩ := Head.begins hts
    obtain ⟨e, he⟩ : ∃ e, (h :: heads).foldr Head.before body.tree = .plain e := by
      cases h <;> exact ⟨_, rfl⟩
    rw [remaining_bind, he] at hrun
    rw [he]
    exact (annotated_eq_ok_of_plain (not_paren_of_chain hk)).2
      ⟨e, (bareExpr_eq_ok_of_chain hk).2 hrun, rfl⟩

/-! ## Cells -/

/-- Cells of a list, written one inside the other, with the given elements and the last tail. -/
def Word.nestedCells (rows : List (List Word)) (tail : List Word) : List Word :=
  rows.foldr (fun ws tail => mark "[" :: (ws ++ mark "|" :: (tail ++ [mark "]"]))) tail

/-- The cells that a tail adds to a list: none before the tail itself, or those of the list that it
is. -/
def Category.TailCells (s : Category) (tail : s.Element) (c : List s.Element × Option s.Element) :
    Prop :=
  c = ([], some tail) ∨ tail = s.keep (Ann.plain (s.list c.1 c.2))

/-- What elements and a tail make. With no elements it is the tail. -/
inductive Category.Conses (s : Category) : List s.Element → s.Element → s.Element → Prop
  | none (tail : s.Element) : Conses s [] tail tail
  | some {xs : List s.Element} {tail : s.Element} {c : List s.Element × Option s.Element} :
      xs ≠ [] → s.TailCells tail c →
      Conses s xs tail (s.keep (Ann.plain (s.list (xs ++ c.1) c.2)))

/-- How the tail of a list is read: as more cells if it opens a list with elements, otherwise as an
element. -/
inductive Parser.ReadsTail {α : Type} (item : Parser α) (rest : List Token) :
    List Token → List α × Option α → Prop
  | opened {o : Token} {us : List Token} {c : List α × Option α} : o.is "[" →
      opensCells (o :: us) = true → (remaining >>= cells item) us = .ok (c, rest) →
      ReadsTail item rest (o :: us) c
  | single {ts : List Token} {x : α} : opensCells ts = false → item ts = .ok (x, rest) →
      ReadsTail item rest ts ([], some x)

/-- One turn of the loop takes an element and the bar after it, and leaves the tail to the next. -/
theorem Parser.ReadsTail.cells {α : Type} {digits : Nat} {item : Parser α} {b e : Token}
    {ts mid rest : List Token} {x : α} {c : List α × Option α} (hitem : Steady digits item)
    (hx : items item ts = .ok ([x], b :: mid)) (hb : b.is "|")
    (htail : ReadsTail item (e :: rest) mid c) (he : e.is "]") :
    (remaining >>= Parser.cells item) ts = .ok ((x :: c.1, c.2), rest) := by
  have hlength := (hitem.items.suffix hx).length_le
  obtain ⟨n, hn⟩ : ∃ n, ts.length = n + 1 :=
    Nat.exists_eq_add_one.2 (Nat.lt_of_lt_of_le (Nat.succ_pos _) hlength)
  rw [remaining_bind, hn, Parser.cells]
  simp only [bind_eq_ok, accept_eq_ok]
  refine ⟨[x], b :: mid, hx, true, mid, .inl ⟨rfl, b, hb, rfl⟩, ?_⟩
  simp only [if_true, bind_eq_ok, get_eq_ok]
  refine ⟨mid, mid, ⟨rfl, rfl⟩, ?_⟩
  cases htail with
  | @opened o us c ho hopen hcells =>
    have hroom : us.length ≤ n := by
      simp only [List.length_cons] at hlength
      omega
    have hcells' := (unfelt_cells hitem).run hcells hroom
    simp only [hopen, if_true, bind_eq_ok, expect_eq_ok]
    exact ⟨(), us, ⟨o, ho, rfl⟩, c, e :: rest, hcells', (), rest, ⟨e, he, rfl⟩, rfl⟩
  | @single _ y hopen hy =>
    simp only [hopen, Bool.false_eq_true, if_false, bind_eq_ok, expect_eq_ok]
    exact ⟨y, e :: rest, hy, (), rest, ⟨e, he, rfl⟩, rfl⟩

namespace Level

variable {digits d : Nat} {s : Category} {ts us mid rest : List Token}

theorem bracketed_mem_phraseCases (l : Level) (s : Category) :
    ("[", bracketed (l.phrase s) (s.lit .nil) s.list) ∈ l.phraseCases s := by
  cases s <;> simp [phraseCases, constCases, patternCases, exprCases, phrase, Category.lit,
    Category.list]

theorem bracketed_eq_ok_of_filled {α β : Type} {item : Parser α} {nil y : β}
    {list : List α → Option α → β} (h : startsWith "]" us = false) :
    bracketed item nil list us = .ok (y, rest) ↔
      ∃ c, (remaining >>= cells item) us = .ok (c, rest) ∧ y = list c.1 c.2 := by
  rw [bracketed_eq, onSymbol_single, h]
  simp only [Bool.false_eq_true, if_false, bind_eq_ok, remaining_eq_ok, pure_eq_ok]
  constructor
  · rintro ⟨_, _, ⟨rfl, rfl⟩, c, _, hc, rfl, rfl⟩
    exact ⟨c, ⟨_, _, ⟨rfl, rfl⟩, hc⟩, rfl⟩
  · rintro ⟨c, ⟨_, _, ⟨rfl, rfl⟩, hc⟩, rfl⟩
    exact ⟨_, _, ⟨rfl, rfl⟩, c, rest, hc, rfl, rfl⟩

/-- A phrase that is read on its own is also read as a tail. If it opens a list with elements, these
were read by the level below. -/
theorem readsTail_of_phrase {x : s.Element}
    (h : (ofDepth digits d).phrase s ts = .ok (x, rest)) :
    ∃ c, s.TailCells x c ∧ ReadsTail ((ofDepth digits d).phrase s) rest ts c := by
  cases hopen : opensCells ts with
  | false => exact ⟨_, .inl rfl, .single hopen h⟩
  | true =>
    cases ts with
    | nil => cases hopen
    | cons o us =>
      obtain ⟨ho, hclose⟩ : o.is "[" = true ∧ startsWith "]" us = false := by
        simpa [opensCells] using hopen
      cases d with
      | zero => cases s <;> cases h
      | succ d =>
        obtain ⟨t, ht, rfl⟩ := (phrase_next_eq_ok ho (bracketed_mem_phraseCases _ s)).1 h
        obtain ⟨c, hc, rfl⟩ := (bracketed_eq_ok_of_filled hclose).1 ht
        have hc' := Agrees.read (cells_agrees digits d s us.length) hc
        exact ⟨c, .inr rfl, .opened ho hopen hc'⟩

/-- The tokens of cells open a list with elements. -/
theorem opensCells_of_nestedCells {rows : List (List Word)} {tail : List Word}
    (r : Reading d (.phrase s)) (hts : Spelled (Word.nestedCells (r.words :: rows) tail) ts rest) :
    opensCells ts = true := by
  obtain ⟨o, us, ho, rfl, hus⟩ := spelled_cons.1 hts
  obtain ⟨mid, hr, -⟩ := spelled_append.1 hus
  have hstart := (r.finds.begins hr).startsWith_eq_false (s := "]") (by cases s <;> decide)
  simp [opensCells, Token.is_of_mark ho, hstart]

/-- The loop takes all the cells. -/
theorem readsTail_of_nestedCells (rs : List (Reading d (.phrase s))) (t : Reading d (.phrase s))
    (hts : Spelled (Word.nestedCells (rs.map Reading.words) t.words) ts rest)
    (hends : (Form.element s).Ends rest) :
    ∃ c, s.TailCells t.tree c ∧
      ReadsTail ((ofDepth numeralLimit d).phrase s) rest ts (rs.map Reading.tree ++ c.1, c.2) := by
  induction rs generalizing ts rest with
  | nil => exact readsTail_of_phrase (t.finds.reads hts hends)
  | cons r rs ih =>
    have hopen := opensCells_of_nestedCells r hts
    simp only [List.map_cons, Word.nestedCells, List.foldr_cons, spelled_cons, spelled_append,
      spelled_nil] at hts
    obtain ⟨o, us, ho, rfl, _, hr, b, mid, hb, rfl, _, hmid, e, _, he, rfl, rfl⟩ := hts
    have hb := Token.is_of_mark hb
    have he := Token.is_of_mark he
    obtain ⟨c, hc, htail⟩ := ih hmid (.symbol he (by cases s <;> decide))
    have hitems := (Finds.items (.cons r.finds .nil) (by cases s <;> decide) (by simp)).reads hr
      (.symbol hb (by cases s <;> decide))
    have hsteady := steady_phrase (ofDepth_steady numeralLimit d) s
    exact ⟨c, hc, .opened (Token.is_of_mark ho) hopen (htail.cells hsteady hitems hb he)⟩

/-- Cells are a phrase of the level above. -/
theorem phrase_of_nestedCells (rs : List (Reading d (.phrase s))) (t : Reading d (.phrase s))
    (hts : Spelled (Word.nestedCells (rs.map Reading.words) t.words) ts rest)
    (hends : (Form.element s).Ends rest) :
    ∃ x, s.Conses (rs.map Reading.tree) t.tree x ∧
      (ofDepth numeralLimit (d + 1)).phrase s ts = .ok (x, rest) := by
  cases rs with
  | nil =>
    exact ⟨t.tree, .none _, Agrees.read (phrase_agrees numeralLimit d s) (t.finds.reads hts hends)⟩
  | cons r rs =>
    obtain ⟨c, hc, htail⟩ := readsTail_of_nestedCells (r :: rs) t hts hends
    cases htail with
    | @opened o us _ ho hopen hcells =>
      have hclose : startsWith "]" us = false := by simpa [opensCells, ho] using hopen
      refine ⟨_, .some (by simp) hc, ?_⟩
      refine (phrase_next_eq_ok ho (bracketed_mem_phraseCases _ s)).2 ⟨_, ?_, rfl⟩
      exact (bracketed_eq_ok_of_filled hclose).2 ⟨_, hcells, rfl⟩

end Level

/-! ## Rows -/

/-- Rows of parts with commas between them, in the phrases that have such a row. The other parts of
the phrase are read at the limit `d`. -/
inductive Row (d : Nat) : (item whole : Part) → Type
  | tuple (s : Category) : Row d (.phrase s) (.phrase s)
  | list (s : Category) : Row d (.phrase s) (.phrase s)
  | values : Row d (.phrase .expr) (.phrase .expr)
  | constBinary : Row d .constSegment (.phrase .const)
  | constMap : Row d .constPair (.phrase .const)
  | patternBinary : Row d .patternSegment (.phrase .pattern)
  | patternMap : Row d .patternPair (.phrase .pattern)
  | binary : Row d .segment (.phrase .expr)
  | map : Row d .mapPair (.phrase .expr)
  | lambda (body : Reading d (.phrase .expr)) : Row d .varName (.phrase .expr)
  | apply (function : Reading d (.phrase .expr)) : Row d (.phrase .expr) (.phrase .expr)
  | call (unit function : Reading d (.phrase .expr)) : Row d (.phrase .expr) (.phrase .expr)
  | primop (name : Reading d .name) : Row d (.phrase .expr) (.phrase .expr)
  | annotations (e : Reading d (.phrase .expr)) : Row d (.phrase .const) (.phrase .expr)

namespace Row

variable {d : Nat} {item whole : Part}

def words : Row d item whole → List (List Word) → List Word
  | .tuple _, rows => mark "\x7b" :: Word.closedBy "\x7d" rows
  | .list _, rows => mark "[" :: Word.closedBy "]" rows
  | .values, rows => mark "<" :: Word.closedBy ">" rows
  | .constBinary, rows | .patternBinary, rows | .binary, rows =>
    mark "#\x7b" :: Word.closedBy "\x7d#" rows
  | .constMap, rows | .patternMap, rows | .map, rows => mark "~\x7b" :: Word.closedBy "\x7d~" rows
  | .lambda body, rows => keyword "fun" :: (Word.arguments rows ++ mark "->" :: body.words)
  | .apply function, rows => keyword "apply" :: (function.words ++ Word.arguments rows)
  | .call unit function, rows =>
    keyword "call" :: (unit.words ++ mark ":" :: (function.words ++ Word.arguments rows))
  | .primop name, rows => keyword "primop" :: (name.words ++ Word.arguments rows)
  | .annotations e, rows =>
    mark "(" :: (e.words ++ mark "-|" :: mark "[" :: (Word.closedBy "]" rows ++ [mark ")"]))

def tree : Row d item whole → List item.Tree → whole.Tree
  | .tuple s, xs => s.keep (.plain (s.tuple xs))
  | .list s, [] => s.keep (.plain (s.lit .nil))
  | .list s, x :: xs => s.keep (.plain (s.list (x :: xs) none))
  | .values, es => .plain (.values es)
  | .constBinary, segments => .binary segments
  | .constMap, pairs => .map pairs
  | .patternBinary, segments => .binary segments
  | .patternMap, pairs => .map pairs
  | .binary, segments => .plain (.binary segments)
  | .map, pairs => .plain (.map pairs none)
  | .lambda body, params => .plain (.lambda params body.tree)
  | .apply function, args => .plain (.apply function.tree args)
  | .call unit function, args => .plain (.call unit.tree function.tree args)
  | .primop name, args => .plain (.primop name.tree.node args)
  | .annotations e, cs => ⟨e.tree.node, e.tree.annotations ++ cs⟩

end Row

namespace Level

variable {d : Nat} {ts rest : List Token}

/-- A row between two marks. -/
theorem phrase_of_sequence (c : Part) (s : Category) (g : List c.Tree → s.Tree) {a close : String}
    (hmem : (a, g <$> sequence ((ofDepth numeralLimit d).part c) close) ∈
      (ofDepth numeralLimit d).phraseCases s)
    (hclose : c.form.ClosedBy close) (rs : List (Reading d c))
    (hts : Spelled (mark a :: Word.closedBy close (rs.map Reading.words)) ts rest) :
    (ofDepth numeralLimit (d + 1)).phrase s ts =
      .ok (s.keep (.plain (g (rs.map Reading.tree))), rest) := by
  obtain ⟨o, us, ho, rfl, hus⟩ := spelled_cons.1 hts
  have hrow := (Finds.sequence (Reading.forall₂_finds rs) close hclose).reads hus (.free rfl)
  exact (phrase_next_eq_ok (Token.is_of_mark ho) hmem).2 ⟨_, map_eq_ok.2 ⟨_, hrow, rfl⟩, rfl⟩

theorem cells_of_items {α : Type} {item : Parser α} {xs : List α} {c : Token}
    (hxs : items item ts = .ok (xs, c :: rest)) (hc : c.is "]") :
    (remaining >>= cells item) ts = .ok ((xs, none), rest) := by
  rw [remaining_bind]
  cases ts.length with
  | zero =>
    simp only [cells, bind_eq_ok, expect_eq_ok]
    exact ⟨xs, c :: rest, hxs, (), rest, ⟨c, hc, rfl⟩, rfl⟩
  | succ n =>
    have hbar : startsWith "|" (c :: rest) = false := Token.is_eq_false hc (by decide)
    simp only [cells, bind_eq_ok, accept_eq_ok]
    refine ⟨xs, c :: rest, hxs, false, c :: rest, .inr ⟨rfl, hbar, rfl⟩, ?_⟩
    simp only [Bool.false_eq_true, if_false, bind_eq_ok, expect_eq_ok]
    exact ⟨(), rest, ⟨c, hc, rfl⟩, rfl⟩

theorem phrase_of_list (s : Category) (rs : List (Reading d (.phrase s)))
    (hts : Spelled (mark "[" :: Word.closedBy "]" (rs.map Reading.words)) ts rest) :
    (ofDepth numeralLimit (d + 1)).phrase s ts =
      .ok ((Row.list (d := d) s).tree (rs.map Reading.tree), rest) := by
  simp only [Word.closedBy, spelled_cons, spelled_append, spelled_nil] at hts
  obtain ⟨o, _, ho, rfl, _, hrow, c, _, hc, rfl, rfl⟩ := hts
  have hc := Token.is_of_mark hc
  refine (phrase_next_eq_ok (Token.is_of_mark ho) (bracketed_mem_phraseCases _ s)).2 ?_
  cases rs with
  | nil =>
    rw [spelled_nil.1 hrow]
    exact ⟨_, bracketed_nil hc, rfl⟩
  | cons r rs =>
    have hitems := Finds.items (Reading.forall₂_finds (r :: rs)) (by cases s <;> decide) (by simp)
    have hstart := (hitems.begins hrow).startsWith_eq_false (s := "]") (by cases s <;> decide)
    have hitems' := hitems.reads hrow (.symbol hc (by cases s <;> decide))
    exact ⟨_, (bracketed_eq_ok_of_filled hstart).2 ⟨_, cells_of_items hitems' hc, rfl⟩, rfl⟩

theorem mapBody_of_row (rs : List (Reading d .mapPair))
    (hts : Spelled (Word.closedBy "\x7d~" (rs.map Reading.words)) ts rest) :
    (ofDepth numeralLimit d).mapBody ts = .ok (.map (rs.map Reading.tree) none, rest) := by
  simp only [Word.closedBy, spelled_cons, spelled_append, spelled_nil] at hts
  obtain ⟨_, hrow, c, rest, hc, rfl, rfl⟩ := hts
  have hc := Token.is_of_mark hc
  have hpairs : (ofDepth numeralLimit d).mapPairs ts = .ok (rs.map Reading.tree, c :: rest) := by
    cases rs with
    | nil =>
      rw [spelled_nil.1 hrow]
      exact mapPairs_nil (.inl hc)
    | cons r rs =>
      have hitems := Finds.items (Reading.forall₂_finds (r :: rs)) (by decide) (by simp)
      have hclose := (hitems.begins hrow).startsWith_eq_false (s := "\x7d~") (by decide)
      have hbar := (hitems.begins hrow).startsWith_eq_false (s := "|") (by decide)
      have hitems' := hitems.reads hrow (.symbol hc (by decide))
      simp only [mapPairs, bind_eq_ok, ahead_eq_ok]
      refine ⟨_, _, ⟨rfl, rfl⟩, _, _, ⟨rfl, rfl⟩, ?_⟩
      rw [if_neg (by simp [hclose, hbar])]
      exact hitems'
  have hnone : startsWith "|" (c :: rest) = false := Token.is_eq_false hc (by decide)
  simp only [mapBody, bind_eq_ok, onSymbol_single_eq_ok, expect_eq_ok]
  exact ⟨_, _, hpairs, none, _, .inr ⟨hnone, rfl⟩, (), rest, ⟨c, hc, rfl⟩, rfl⟩

theorem finds_arguments (rs : List (Reading d (.phrase .expr))) :
    Finds .arguments (ofDepth numeralLimit d).arguments (Word.arguments (rs.map Reading.words))
      (rs.map Reading.tree) := by
  have hrow := Finds.sequence (Reading.forall₂_finds rs) ")" (by decide)
  constructor
  · intro ts rest hts
    obtain ⟨o, us, ho, rfl, -⟩ := spelled_cons.1 hts
    exact .symbol (Token.is_of_mark ho) (by decide)
  · intro ts rest hts _
    obtain ⟨o, us, ho, rfl, hus⟩ := spelled_cons.1 hts
    refine bind_eq_ok.2 ⟨(), us, expect_eq_ok.2 ⟨o, Token.is_of_mark ho, rfl⟩, ?_⟩
    exact hrow.reads hus (.free rfl)

/-- An expression that begins with a keyword is read by the parser of the level below for this
keyword. -/
theorem expr_of_keyword {a : String} {k : Token} {q : Parser Expr} {us : List Token} {e : Expr}
    (hk : k.word = keyword a) (hmem : (a, q) ∈ (ofDepth numeralLimit d).keywordCases)
    (hq : q us = .ok (e, rest)) :
    (ofDepth numeralLimit (d + 1)).expr (k :: us) = .ok (.plain e, rest) := by
  have hk := Token.isKeyword_of_word hk
  have hparen : startsWith "(" (k :: us) = false := by
    refine Token.is_eq_false hk.is ?_
    rintro rfl
    simp [keywordCases] at hmem
  refine (annotated_eq_ok_of_plain hparen).2 ⟨e, ?_, rfl⟩
  rw [bareExpr_of_keyword hk (List.mem_cons_of_mem _ (List.mem_cons_of_mem _ hmem))]
  exact hq

theorem expr_of_map (pairs : List (Reading d .mapPair))
    (hts : Spelled (mark "~\x7b" :: Word.closedBy "\x7d~" (pairs.map Reading.words)) ts rest) :
    (ofDepth numeralLimit (d + 1)).expr ts =
      .ok (.plain (.map (pairs.map Reading.tree) none), rest) := by
  obtain ⟨o, us, ho, rfl, hus⟩ := spelled_cons.1 hts
  have hmem : ("~\x7b", (ofDepth numeralLimit d).mapBody) ∈
      (ofDepth numeralLimit d).phraseCases .expr := by simp [phraseCases, exprCases]
  exact (phrase_next_eq_ok (Token.is_of_mark ho) hmem).2 ⟨_, mapBody_of_row pairs hus, rfl⟩

theorem expr_of_lambda (body : Reading d (.phrase .expr)) (params : List (Reading d .varName))
    (hts : Spelled (keyword "fun" :: (Word.arguments (params.map Reading.words) ++
      mark "->" :: body.words)) ts rest)
    (hends : (Form.element .expr).Ends rest) :
    (ofDepth numeralLimit (d + 1)).expr ts =
      .ok (.plain (.lambda (params.map Reading.tree) body.tree), rest) := by
  simp only [Word.arguments, List.cons_append, spelled_cons, spelled_append] at hts
  obtain ⟨k, _, hk, rfl, o, _, ho, rfl, _, hrow, a, mid, ha, rfl, hbody⟩ := hts
  have hparams := (Finds.sequence (Reading.forall₂_finds params) ")" (by decide)).reads hrow
    (.free rfl)
  refine expr_of_keyword hk (q := (ofDepth numeralLimit d).lambda) (by simp [keywordCases]) ?_
  simp only [lambda, bind_eq_ok, expect_eq_ok]
  exact ⟨(), _, ⟨o, Token.is_of_mark ho, rfl⟩, _, _, hparams, (), mid,
    ⟨a, Token.is_of_mark ha, rfl⟩, _, _, body.finds.reads hbody hends, rfl⟩

theorem expr_of_apply (function : Reading d (.phrase .expr)) (args : List (Reading d (.phrase .expr)))
    (hts : Spelled (keyword "apply" :: (function.words ++
      Word.arguments (args.map Reading.words))) ts rest) :
    (ofDepth numeralLimit (d + 1)).expr ts =
      .ok (.plain (.apply function.tree (args.map Reading.tree)), rest) := by
  simp only [spelled_cons, spelled_append] at hts
  obtain ⟨k, _, hk, rfl, _, hfunction, hargs⟩ := hts
  have hfunction' := function.finds.reads hfunction
    (.begins ((finds_arguments args).begins hargs) (by decide))
  refine expr_of_keyword hk (q := (ofDepth numeralLimit d).apply) (by simp [keywordCases]) ?_
  simp only [apply, bind_eq_ok]
  exact ⟨_, _, hfunction', _, _, (finds_arguments args).reads hargs (.free rfl), rfl⟩

theorem expr_of_call (unit function : Reading d (.phrase .expr))
    (args : List (Reading d (.phrase .expr)))
    (hts : Spelled (keyword "call" :: (unit.words ++ mark ":" :: (function.words ++
      Word.arguments (args.map Reading.words)))) ts rest) :
    (ofDepth numeralLimit (d + 1)).expr ts =
      .ok (.plain (.call unit.tree function.tree (args.map Reading.tree)), rest) := by
  simp only [spelled_cons, spelled_append] at hts
  obtain ⟨k, _, hk, rfl, _, hunit, c, mid, hc, rfl, _, hfunction, hargs⟩ := hts
  have hc := Token.is_of_mark hc
  have hunit' := unit.finds.reads hunit (.symbol hc (by decide))
  have hfunction' := function.finds.reads hfunction
    (.begins ((finds_arguments args).begins hargs) (by decide))
  refine expr_of_keyword hk (q := (ofDepth numeralLimit d).call) (by simp [keywordCases]) ?_
  simp only [call, bind_eq_ok, expect_eq_ok]
  exact ⟨_, _, hunit', (), mid, ⟨c, hc, rfl⟩, _, _, hfunction', _, _,
    (finds_arguments args).reads hargs (.free rfl), rfl⟩

theorem expr_of_primop (name : Reading d .name) (args : List (Reading d (.phrase .expr)))
    (hts : Spelled (keyword "primop" :: (name.words ++
      Word.arguments (args.map Reading.words))) ts rest) :
    (ofDepth numeralLimit (d + 1)).expr ts =
      .ok (.plain (.primop name.tree.node (args.map Reading.tree)), rest) := by
  simp only [spelled_cons, spelled_append] at hts
  obtain ⟨k, _, hk, rfl, _, hname, hargs⟩ := hts
  refine expr_of_keyword hk (q := (ofDepth numeralLimit d).primop) (by simp [keywordCases]) ?_
  simp only [primop, bind_eq_ok]
  exact ⟨_, _, name.finds.reads hname (.free rfl), _, _,
    (finds_arguments args).reads hargs (.free rfl), rfl⟩

/-- An expression in parentheses is what it is without, with the annotations that stand before the
closing mark. -/
theorem expr_of_closing (e : Reading d (.phrase .expr)) {mid : List Token} {more : List Const}
    (hts : Spelled (mark "(" :: e.words) ts mid) (hends : (Form.element .expr).Ends mid)
    (hmore : (ofDepth numeralLimit d).closing mid = .ok (more, rest)) :
    (ofDepth numeralLimit (d + 1)).expr ts =
      .ok (⟨e.tree.node, e.tree.annotations ++ more⟩, rest) := by
  obtain ⟨o, us, ho, rfl, he⟩ := spelled_cons.1 hts
  refine onSymbol_single_eq_ok.2 (.inl ⟨o, us, Token.is_of_mark ho, rfl, ?_⟩)
  simp only [bind_eq_ok]
  exact ⟨_, mid, e.finds.reads he hends, more, rest, hmore, rfl⟩

theorem closing_of_paren {c : Token} (hc : c.is ")") :
    (ofDepth numeralLimit d).closing (c :: rest) = .ok ([], rest) := by
  have hbar : startsWith "-|" (c :: rest) = false := Token.is_eq_false hc (by decide)
  simp only [closing, annotations, bind_eq_ok, onSymbol_single_eq_ok, expect_eq_ok]
  exact ⟨[], c :: rest, .inr ⟨hbar, rfl⟩, (), rest, ⟨c, hc, rfl⟩, rfl⟩

/-- A row of constants that is closed is all that stands in the brackets of annotations. -/
theorem closing_of_annotations {b o c : Token} {us : List Token} {xs : List Const} (hb : b.is "-|")
    (ho : o.is "[") (hrow : sequence (ofDepth numeralLimit d).constant "]" us = .ok (xs, c :: rest))
    (hc : c.is ")") : (ofDepth numeralLimit d).closing (b :: o :: us) = .ok (xs, rest) := by
  simp only [closing, annotations, bind_eq_ok, onSymbol_single_eq_ok, expect_eq_ok]
  exact ⟨xs, c :: rest, .inl ⟨b, o :: us, hb, rfl, (), us, ⟨o, ho, rfl⟩, hrow⟩, (), rest,
    ⟨c, hc, rfl⟩, rfl⟩

theorem expr_of_annotations (e : Reading d (.phrase .expr)) (cs : List (Reading d (.phrase .const)))
    (hts : Spelled (mark "(" :: (e.words ++ mark "-|" :: mark "[" ::
      (Word.closedBy "]" (cs.map Reading.words) ++ [mark ")"]))) ts rest) :
    (ofDepth numeralLimit (d + 1)).expr ts =
      .ok (⟨e.tree.node, e.tree.annotations ++ cs.map Reading.tree⟩, rest) := by
  rw [← List.cons_append] at hts
  obtain ⟨mid, he, hmid⟩ := spelled_append.1 hts
  simp only [spelled_cons, spelled_append, spelled_nil] at hmid
  obtain ⟨b, _, hb, rfl, o, us, ho, rfl, _, hrow, c, _, hc, rfl, rfl⟩ := hmid
  have hb := Token.is_of_mark hb
  have hrow' := (Finds.sequence (Reading.forall₂_finds cs) "]" (by decide)).reads hrow (.free rfl)
  exact expr_of_closing e he (.symbol hb (by decide))
    (closing_of_annotations hb (Token.is_of_mark ho) hrow' (Token.is_of_mark hc))

end Level

/-- A phrase with a row is a phrase of the level above. -/
theorem Row.reads {d : Nat} {item whole : Part} (row : Row d item whole)
    (rs : List (Reading d item)) {ts : List Token}
    (hts : Spelled (row.words (rs.map Reading.words)) ts []) :
    (Level.ofDepth numeralLimit (d + 1)).part whole ts =
      .ok (row.tree (rs.map Reading.tree), []) := by
  cases row with
  | tuple s =>
    refine Level.phrase_of_sequence (.phrase s) s s.tuple ?_ (by cases s <;> decide) rs hts
    cases s <;> simp [Level.phraseCases, Level.constCases, Level.patternCases, Level.exprCases,
      Level.part, Level.phrase, Category.tuple]
  | list s => exact Level.phrase_of_list s rs hts
  | values =>
    refine Level.phrase_of_sequence (.phrase .expr) .expr .values ?_ (by decide) rs hts
    simp [Level.phraseCases, Level.exprCases, Level.part, Level.phrase]
  | constBinary =>
    refine Level.phrase_of_sequence .constSegment .const .binary ?_ (by decide) rs hts
    simp [Level.phraseCases, Level.constCases, Level.part]
  | constMap =>
    refine Level.phrase_of_sequence .constPair .const .map ?_ (by decide) rs hts
    simp [Level.phraseCases, Level.constCases, Level.part]
  | patternBinary =>
    refine Level.phrase_of_sequence .patternSegment .pattern .binary ?_ (by decide) rs hts
    simp [Level.phraseCases, Level.patternCases, Level.part]
  | patternMap =>
    refine Level.phrase_of_sequence .patternPair .pattern .map ?_ (by decide) rs hts
    simp [Level.phraseCases, Level.patternCases, Level.part]
  | binary =>
    refine Level.phrase_of_sequence .segment .expr .binary ?_ (by decide) rs hts
    simp [Level.phraseCases, Level.exprCases, Level.part]
  | map => exact Level.expr_of_map rs hts
  | lambda body => exact Level.expr_of_lambda body rs hts .nil
  | apply function => exact Level.expr_of_apply function rs hts
  | call unit function => exact Level.expr_of_call unit function rs hts
  | primop name => exact Level.expr_of_primop name rs hts
  | annotations e => exact Level.expr_of_annotations e rs hts

/-! ## Clauses and definitions -/

namespace Level

variable {d : Nat} {ts rest : List Token}

theorem finds_clauses {stop : String} (rs : List (Reading d .clause))
    (hstop : Form.clause.StoppedBy stop) :
    Finds (.run .clause stop) ((ofDepth numeralLimit d).clauses stop)
      ((rs.map Reading.words).flatten ++ [keyword stop]) (rs.map Reading.tree) :=
  Finds.run (Reading.forall₂_finds rs) hstop

theorem finds_definitions {stop : String} (rs : List (Reading d .definition))
    (hstop : Form.definition.StoppedBy stop) :
    Finds (.run .definition stop) ((ofDepth numeralLimit d).definitions stop)
      ((rs.map Reading.words).flatten ++ [keyword stop]) (rs.map Reading.tree) :=
  Finds.run (Reading.forall₂_finds rs) hstop

end Level

/-- The words of a case with the words of its parts. -/
def Word.caseOf (subject : List Word) (clauses : List (List Word)) : List Word :=
  keyword "case" :: (subject ++ keyword "of" :: (clauses.flatten ++ [keyword "end"]))

def Word.receive (clauses : List (List Word)) (timeout action : List Word) : List Word :=
  keyword "receive" :: (clauses.flatten ++ keyword "after" :: (timeout ++ mark "->" :: action))

def Word.letRec (definitions : List (List Word)) (body : List Word) : List Word :=
  keyword "letrec" :: (definitions.flatten ++ keyword "in" :: body)

def Word.unit (name : String) (exports attributes definitions : List (List Word)) : List Word :=
  keyword "module" :: ⟨.atom, name⟩ :: mark "[" :: (Word.closedBy "]" exports ++
    keyword "attributes" :: mark "[" :: (Word.closedBy "]" attributes ++
      (definitions.flatten ++ [keyword "end"])))

namespace Level

variable {d : Nat} {ts rest : List Token}

theorem expr_of_caseOf (subject : Reading d (.phrase .expr)) (clauses : List (Reading d .clause))
    (hts : Spelled (Word.caseOf subject.words (clauses.map Reading.words)) ts rest) :
    (ofDepth numeralLimit (d + 1)).expr ts =
      .ok (.plain (.caseOf subject.tree (clauses.map Reading.tree)), rest) := by
  obtain ⟨k, us, hk, rfl, hus⟩ := spelled_cons.1 hts
  obtain ⟨_, hsubject, hus⟩ := spelled_append.1 hus
  obtain ⟨o, mid, ho, rfl, hclauses⟩ := spelled_cons.1 hus
  have ho := Token.is_of_keyword ho
  have hsubject' := subject.finds.reads hsubject (.symbol ho (by decide))
  have hclauses' := (finds_clauses clauses (by decide)).reads hclauses (.free rfl)
  refine expr_of_keyword hk (q := (ofDepth numeralLimit d).caseOf) (by simp [keywordCases]) ?_
  simp only [caseOf, bind_eq_ok, expect_eq_ok]
  exact ⟨_, _, hsubject', (), mid, ⟨o, ho, rfl⟩, _, _, hclauses', rfl⟩

theorem expr_of_receive (clauses : List (Reading d .clause))
    (timeout action : Reading d (.phrase .expr))
    (hts : Spelled (Word.receive (clauses.map Reading.words) timeout.words action.words) ts rest)
    (hends : (Form.element .expr).Ends rest) :
    (ofDepth numeralLimit (d + 1)).expr ts =
      .ok (.plain (.receive (clauses.map Reading.tree) timeout.tree action.tree), rest) := by
  obtain ⟨k, us, hk, rfl, hus⟩ := spelled_cons.1 hts
  rw [List.append_cons] at hus
  obtain ⟨_, hclauses, hus⟩ := spelled_append.1 hus
  obtain ⟨_, htimeout, hus⟩ := spelled_append.1 hus
  obtain ⟨a, mid, ha, rfl, haction⟩ := spelled_cons.1 hus
  have ha := Token.is_of_mark ha
  have hclauses' := (finds_clauses clauses (by decide)).reads hclauses (.free rfl)
  have htimeout' := timeout.finds.reads htimeout (.symbol ha (by decide))
  refine expr_of_keyword hk (q := (ofDepth numeralLimit d).receive) (by simp [keywordCases]) ?_
  simp only [receive, bind_eq_ok, expect_eq_ok]
  exact ⟨_, _, hclauses', _, _, htimeout', (), mid, ⟨a, ha, rfl⟩, _, _,
    action.finds.reads haction hends, rfl⟩

theorem expr_of_letRec (definitions : List (Reading d .definition))
    (body : Reading d (.phrase .expr))
    (hts : Spelled (Word.letRec (definitions.map Reading.words) body.words) ts rest)
    (hends : (Form.element .expr).Ends rest) :
    (ofDepth numeralLimit (d + 1)).expr ts =
      .ok (.plain (.letRec (definitions.map Reading.tree) body.tree), rest) := by
  obtain ⟨k, us, hk, rfl, hus⟩ := spelled_cons.1 hts
  rw [List.append_cons] at hus
  obtain ⟨_, hdefinitions, hbody⟩ := spelled_append.1 hus
  have hdefinitions' := (finds_definitions definitions (by decide)).reads hdefinitions (.free rfl)
  refine expr_of_keyword hk (q := (ofDepth numeralLimit d).letRec) (by simp [keywordCases]) ?_
  simp only [letRec, bind_eq_ok]
  exact ⟨_, _, hdefinitions', _, _, body.finds.reads hbody hends, rfl⟩

theorem unit_of_parts (name : String) (exports : List (Reading d .exportedName))
    (attributes : List (Reading d .attribute)) (definitions : List (Reading d .definition))
    (hts : Spelled (Word.unit name (exports.map Reading.words) (attributes.map Reading.words)
      (definitions.map Reading.words)) ts rest) :
    (ofDepth numeralLimit (d + 1)).unit ts = .ok (.plain ⟨name, exports.map Reading.tree,
      attributes.map Reading.tree, definitions.map Reading.tree⟩, rest) := by
  obtain ⟨k, _, hk, rfl, h₁⟩ := spelled_cons.1 hts
  obtain ⟨n, _, hn, rfl, h₂⟩ := spelled_cons.1 h₁
  obtain ⟨o, _, ho, rfl, h₃⟩ := spelled_cons.1 h₂
  obtain ⟨_, hexports, h₄⟩ := spelled_append.1 h₃
  obtain ⟨a, _, ha, rfl, h₅⟩ := spelled_cons.1 h₄
  obtain ⟨o', _, ho', rfl, h₆⟩ := spelled_cons.1 h₅
  obtain ⟨_, hattributes, hdefinitions⟩ := spelled_append.1 h₆
  obtain ⟨hkind, rfl⟩ := Token.kind_text_of_word hn
  have hk := Token.is_of_keyword hk
  have hexports' := (Finds.sequence (Reading.forall₂_finds exports) "]"
    (by decide)).reads hexports (.free rfl)
  have hattributes' := (Finds.sequence (Reading.forall₂_finds attributes) "]"
    (by decide)).reads hattributes (.free rfl)
  have hdefinitions' := (finds_definitions definitions (by decide)).reads hdefinitions (.free rfl)
  have hparen (us : List Token) : startsWith "(" (k :: us) = false :=
    Token.is_eq_false hk (by decide)
  refine (annotated_eq_ok_of_plain (hparen _)).2 ⟨_, ?_, rfl⟩
  simp only [bareModule, bind_eq_ok, expect_eq_ok, expectKind_eq_ok]
  exact ⟨(), _, ⟨k, hk, rfl⟩, _, _, ⟨n, hkind, rfl, rfl⟩, (), _, ⟨o, Token.is_of_mark ho, rfl⟩, _, _,
    hexports', (), _, ⟨a, Token.is_of_keyword ha, rfl⟩, (), _, ⟨o', Token.is_of_mark ho', rfl⟩, _, _,
    hattributes', _, _, hdefinitions', rfl⟩

end Level

/-! ## Texts -/

/-- The text is read as a part at the limit `d`. -/
def ReadsAs (d : Nat) (c : Part) (text : String) (x : c.Tree) : Prop :=
  ∀ file, readText ((Level.ofDepth numeralLimit d).part c).whole file text = .ok x

/-- What is read at the limit `limit` if the parts are read at the limit `d`, however many parts there
are. The words of a text are those of its parts, with keywords and marks between them; how the text
sets them apart does not matter. -/
structure StraightLine (d limit : Nat) : Prop where
  /-- Bindings and first steps in any mixture, and a body. -/
  chain : ∀ (heads : List (Head d)) (body : Reading d (.phrase .expr)) (text : String) file,
    wordsOfText text = some (heads.flatMap Head.words ++ body.words) →
    readText (exprOfTokens limit) file text = .ok (heads.foldr Head.before body.tree)
  /-- Cells written one inside the other. -/
  cells : ∀ (s : Category) (elements : List (Reading d (.phrase s))) (tail : Reading d (.phrase s))
    (text : String),
    wordsOfText text = some (Word.nestedCells (elements.map Reading.words) tail.words) →
    ∃ x, s.Conses (elements.map Reading.tree) tail.tree x ∧ ReadsAs limit (.phrase s) text x
  /-- Phrases with a row of items. -/
  row : ∀ (item whole : Part) (row : Row d item whole) (items : List (Reading d item))
    (text : String), wordsOfText text = some (row.words (items.map Reading.words)) →
    ReadsAs limit whole text (row.tree (items.map Reading.tree))
  /-- A row alone, of any items. It does not even need more than its items do. -/
  sequence : ∀ (c : Part) (close : String), c.form.ClosedBy close →
    ∀ (items : List (Reading d c)) (text : String) file,
    wordsOfText text = some (Word.closedBy close (items.map Reading.words)) →
    readText (Parser.sequence ((Level.ofDepth numeralLimit d).part c) close).whole file text =
      .ok (items.map Reading.tree)
  caseOf : ∀ (subject : Reading d (.phrase .expr)) (clauses : List (Reading d .clause))
    (text : String) file,
    wordsOfText text = some (Word.caseOf subject.words (clauses.map Reading.words)) →
    readText (exprOfTokens limit) file text =
      .ok (.plain (.caseOf subject.tree (clauses.map Reading.tree)))
  receive : ∀ (clauses : List (Reading d .clause)) (timeout action : Reading d (.phrase .expr))
    (text : String) file,
    wordsOfText text =
      some (Word.receive (clauses.map Reading.words) timeout.words action.words) →
    readText (exprOfTokens limit) file text =
      .ok (.plain (.receive (clauses.map Reading.tree) timeout.tree action.tree))
  letRec : ∀ (definitions : List (Reading d .definition)) (body : Reading d (.phrase .expr))
    (text : String) file,
    wordsOfText text = some (Word.letRec (definitions.map Reading.words) body.words) →
    readText (exprOfTokens limit) file text =
      .ok (.plain (.letRec (definitions.map Reading.tree) body.tree))
  unit : ∀ (name : String) (exports : List (Reading d .exportedName))
    (attributes : List (Reading d .attribute)) (definitions : List (Reading d .definition))
    (text : String) file,
    wordsOfText text = some (Word.unit name (exports.map Reading.words)
      (attributes.map Reading.words) (definitions.map Reading.words)) →
    readText (moduleOfTokens limit) file text = .ok (.plain ⟨name, exports.map Reading.tree,
      attributes.map Reading.tree, definitions.map Reading.tree⟩)

/-- One level above the level that reads the parts is enough, however many parts there are. -/
theorem straight_line_code_does_not_nest (d : Nat) : StraightLine d (d + 1) := by
  constructor
  case chain =>
    exact fun heads body text file hws =>
      readText_of_words hws (fun _ => Level.expr_of_heads heads body) file
  case cells =>
    intro s elements tail text hws
    obtain ⟨stream, hstream, hwords⟩ := wordsOfText_eq_some hws
    obtain ⟨x, hx, hread⟩ := Level.phrase_of_nestedCells elements tail
      ⟨stream.tokens, hwords, (List.append_nil _).symm⟩ .nil
    exact ⟨x, hx, fun file => readText_eq_ok.2 ⟨stream, hstream file, whole_eq_ok.2 hread⟩⟩
  case row =>
    exact fun item whole row items text hws => readText_of_words hws fun _ => row.reads items
  case sequence =>
    intro c close hclose items text file hws
    have hrow := Finds.sequence (Reading.forall₂_finds items) close hclose
    exact readText_of_words hws (fun _ hts => hrow.reads hts .nil) file
  case caseOf =>
    exact fun subject clauses text file hws =>
      readText_of_words hws (fun _ => Level.expr_of_caseOf subject clauses) file
  case receive =>
    exact fun clauses timeout action text file hws => readText_of_words hws
      (fun _ hts => Level.expr_of_receive clauses timeout action hts .nil) file
  case letRec =>
    exact fun definitions body text file hws => readText_of_words hws
      (fun _ hts => Level.expr_of_letRec definitions body hts .nil) file
  case unit =>
    exact fun name exports attributes definitions text file hws => readText_of_words hws
      (fun _ => Level.unit_of_parts name exports attributes definitions) file

/-- A binding, a first step and a body at the limit two, of which the parts are read at the limit
one. -/
theorem straight_line_code_two_heads :
    readText (exprOfTokens 2) none "let X = 'a' in do X 'b'" =
      .ok (.plain (.letIn ["X"] (.plain (.lit (.atom "a")))
        (.plain (.seq (.plain (.var "X")) (.plain (.lit (.atom "b"))))))) := by
  have hX : wordsOfText "X" = some [⟨.var, "X"⟩] := by decide +kernel
  have ha : wordsOfText "'a'" = some [⟨.atom, "a"⟩] := by decide +kernel
  have hb : wordsOfText "'b'" = some [⟨.atom, "b"⟩] := by decide +kernel
  have hall : wordsOfText "let X = 'a' in do X 'b'" = some [keyword "let", ⟨.var, "X"⟩, mark "=",
      ⟨.atom, "a"⟩, keyword "in", keyword "do", ⟨.var, "X"⟩, ⟨.atom, "b"⟩] := by decide +kernel
  let vars : Reading 1 .varList := .ofWords hX ["X"] rfl
  let value : Reading 1 (.phrase .expr) := .ofWords ha (.plain (.lit (.atom "a"))) rfl
  let first : Reading 1 (.phrase .expr) := .ofWords hX (.plain (.var "X")) rfl
  let body : Reading 1 (.phrase .expr) := .ofWords hb (.plain (.lit (.atom "b"))) rfl
  exact (straight_line_code_does_not_nest 1).chain [.letIn vars value, .step first] body
    "let X = 'a' in do X 'b'" none hall

end CallGraph
