import CallGraph.Core.Diagnostic
import CallGraph.Proofs.Parsing.Completeness
import CallGraph.Proofs.Printing
import Mathlib.Data.List.Forall2

/-!
What is printed is read again. Each production of the grammar has a counterpart for words: words that
print the parts, put together as the printer does, print the whole. So the words of a tree print the
tree, by recursion on it.
-/

namespace CallGraph

open Word (mark keyword)

/-- The tokens `ts` are those of the words, followed by `rest`. -/
def Spelled (ws : List Word) (ts rest : List Token) : Prop :=
  ∃ us, us.map Token.word = ws ∧ ts = us ++ rest

variable {f : Form} {s : Category} {ws vs : List Word} {ts rest : List Token}

theorem spelled_nil : Spelled [] ts rest ↔ ts = rest := by
  simp [Spelled]

theorem spelled_cons {w : Word} :
    Spelled (w :: ws) ts rest ↔ ∃ t us, t.word = w ∧ ts = t :: us ∧ Spelled ws us rest := by
  constructor
  · rintro ⟨us, hus, rfl⟩
    obtain ⟨t, vs, rfl, ht, hvs⟩ := List.map_eq_cons_iff.1 hus
    exact ⟨t, vs ++ rest, ht, rfl, vs, hvs, rfl⟩
  · rintro ⟨t, _, ht, rfl, us, hus, rfl⟩
    exact ⟨t :: us, by rw [List.map_cons, ht, hus], rfl⟩

theorem spelled_append :
    Spelled (ws ++ vs) ts rest ↔ ∃ mid, Spelled ws ts mid ∧ Spelled vs mid rest := by
  constructor
  · rintro ⟨us, hus, rfl⟩
    obtain ⟨as, bs, rfl, has, hbs⟩ := List.map_eq_append_iff.1 hus
    exact ⟨bs ++ rest, ⟨as, has, List.append_assoc ..⟩, bs, hbs, rfl⟩
  · rintro ⟨_, ⟨as, has, rfl⟩, bs, hbs, rfl⟩
    exact ⟨as ++ bs, by rw [List.map_append, has, hbs], (List.append_assoc ..).symm⟩

theorem spelled_place (offset : Nat) (ws : List Word) : Spelled ws (Word.place offset ws) [] :=
  ⟨_, Word.map_word_place offset ws, (List.append_nil _).symm⟩

namespace Token

variable {t : Token} {a : String}

theorem kind_text_of_word {k : Kind} (h : t.word = ⟨k, a⟩) : t.kind = k ∧ t.text = a :=
  Word.mk.inj h

theorem is_of_mark (h : t.word = mark a) : t.is a := by
  obtain ⟨hk, htext⟩ := kind_text_of_word h
  simp [Token.is, hk, htext]

theorem isKeyword_of_word (h : t.word = keyword a) : t.IsKeyword a := by
  obtain ⟨hk, htext⟩ := kind_text_of_word h
  exact ⟨hk, by simp [Token.is, hk, htext]⟩

theorem is_of_keyword (h : t.word = keyword a) : t.is a := (isKeyword_of_word h).is

end Token

namespace Word

theorem mark_legible {a : String} (h : a ∈ marks) : (mark a).Legible := h

theorem keyword_legible {a : String} (h : a ∈ keywords) : (keyword a).Legible := h

theorem atom_legible (a : String) : (Word.mk .atom a).Legible := trivial

theorem integer_legible {n : Int} (h : Numeral.Short n) : (Word.integer n).Legible :=
  ⟨n, String.toList_ofList, h⟩

end Word

/-- The words are legible, and their tokens write `x` as the form. -/
structure Prints (f : Form) (ws : List Word) (x : f.Tree) : Prop where
  legible : ∀ w ∈ ws, w.Legible
  writes : ∀ ⦃ts rest⦄, Spelled ws ts rest → Writes f ts x rest

namespace Prints

/-! ## Rows -/

theorem commas {rows : List (List Word)} {xs : List f.Tree} (h : List.Forall₂ (Prints f) rows xs)
    (hne : xs ≠ []) : Prints (.items f) (Word.commas rows) xs := by
  induction h with
  | nil => exact absurd rfl hne
  | @cons ws x rows xs hx hxs ih =>
    cases hxs with
    | nil => exact ⟨hx.legible, fun ts rest h => .one (hx.writes h)⟩
    | @cons vs y rows xs hy hxs =>
      have ih := ih (by simp)
      constructor
      · simp only [Word.commas, List.forall_mem_append, List.forall_mem_cons]
        exact ⟨hx.legible, Word.mark_legible (by decide), ih.legible⟩
      · intro ts rest h
        simp only [Word.commas, spelled_append, spelled_cons] at h
        obtain ⟨_, hws, c, _, hc, rfl, hrows⟩ := h
        exact .more (hx.writes hws) (Token.is_of_mark hc) (ih.writes hrows)

theorem closedBy {close : String} {rows : List (List Word)} {xs : List f.Tree}
    (h : List.Forall₂ (Prints f) rows xs) (hclose : close ∈ Word.marks) :
    Prints (.sequence f close) (Word.closedBy close rows) xs := by
  cases h with
  | nil =>
    refine ⟨List.forall_mem_singleton.2 hclose, ?_⟩
    intro ts rest h
    simp only [Word.closedBy, Word.commas, List.nil_append, spelled_cons, spelled_nil] at h
    obtain ⟨c, _, hc, rfl, rfl⟩ := h
    exact .empty (Token.is_of_mark hc)
  | @cons ws x rows xs hx hxs =>
    have hitems := commas (.cons hx hxs) (by simp)
    constructor
    · simp only [Word.closedBy, List.forall_mem_append, List.forall_mem_singleton]
      exact ⟨hitems.legible, hclose⟩
    · intro ts rest h
      simp only [Word.closedBy, spelled_append, spelled_cons, spelled_nil] at h
      obtain ⟨_, hrows, c, _, hc, rfl, rfl⟩ := h
      exact .filled (hitems.writes hrows) (Token.is_of_mark hc)

theorem runNil {stop : String} (hstop : stop ∈ Word.keywords) :
    Prints (.run f stop) [keyword stop] [] := by
  refine ⟨List.forall_mem_singleton.2 hstop, ?_⟩
  intro ts rest hts
  simp only [spelled_cons, spelled_nil] at hts
  obtain ⟨c, _, hc, rfl, rfl⟩ := hts
  exact .stop (Token.is_of_keyword hc)

theorem runCons {stop : String} {x : f.Tree} {xs : List f.Tree} (hx : Prints f ws x)
    (hxs : Prints (.run f stop) vs xs) : Prints (.run f stop) (ws ++ vs) (x :: xs) := by
  refine ⟨List.forall_mem_append.2 ⟨hx.legible, hxs.legible⟩, ?_⟩
  intro ts rest hts
  obtain ⟨mid, hws, hvs⟩ := spelled_append.1 hts
  exact .go (hx.writes hws) (hxs.writes hvs)

/-! ## Parts after a mark or a keyword -/

theorem afterMark {g : Form} {a : String} {x : f.Tree} {y : g.Tree} (h : Prints f ws x)
    (ha : a ∈ Word.marks)
    (make : ∀ ⦃o ts rest⦄, o.is a → Writes f ts x rest → Writes g (o :: ts) y rest) :
    Prints g (mark a :: ws) y := by
  refine ⟨List.forall_mem_cons.2 ⟨ha, h.legible⟩, ?_⟩
  intro ts rest hts
  obtain ⟨o, us, ho, rfl, hus⟩ := spelled_cons.1 hts
  exact make (Token.is_of_mark ho) (h.writes hus)

theorem afterKeyword {g : Form} {a : String} {x : f.Tree} {y : g.Tree} (h : Prints f ws x)
    (ha : a ∈ Word.keywords)
    (make : ∀ ⦃k ts rest⦄, k.IsKeyword a → Writes f ts x rest → Writes g (k :: ts) y rest) :
    Prints g (keyword a :: ws) y := by
  refine ⟨List.forall_mem_cons.2 ⟨ha, h.legible⟩, ?_⟩
  intro ts rest hts
  obtain ⟨k, us, hk, rfl, hus⟩ := spelled_cons.1 hts
  exact make (Token.isKeyword_of_word hk) (h.writes hus)

/-- Words that print one form print another one that it is a case of. -/
theorem lift {g : Form} {x : f.Tree} {y : g.Tree} (h : Prints f ws x)
    (make : ∀ ⦃ts rest⦄, Writes f ts x rest → Writes g ts y rest) : Prints g ws y :=
  ⟨h.legible, fun _ _ hts => make (h.writes hts)⟩

/-! ## Words -/

theorem atom (a : String) : Prints .atom [⟨.atom, a⟩] a := by
  refine ⟨List.forall_mem_singleton.2 (Word.atom_legible a), ?_⟩
  intro ts rest h
  simp only [spelled_cons, spelled_nil] at h
  obtain ⟨t, _, ht, rfl, rfl⟩ := h
  obtain ⟨hk, rfl⟩ := Token.kind_text_of_word ht
  exact .atom hk

theorem var {a : String} (h : IsVariable a) : Prints .var [⟨.var, a⟩] a := by
  refine ⟨List.forall_mem_singleton.2 h, ?_⟩
  intro ts rest h
  simp only [spelled_cons, spelled_nil] at h
  obtain ⟨t, _, ht, rfl, rfl⟩ := h
  obtain ⟨hk, rfl⟩ := Token.kind_text_of_word ht
  exact .varName hk

theorem literal {v : Literal} (h : v.WellFormed) : Prints (.base s) v.words (s.lit v) := by
  have hword {w : Word} (hw : w.Legible) (hdenotes : ∀ t : Token, t.word = w → t.Denotes v) :
      Prints (.base s) [w] (s.lit v) := by
    refine ⟨List.forall_mem_singleton.2 hw, ?_⟩
    intro ts rest hts
    simp only [spelled_cons, spelled_nil] at hts
    obtain ⟨t, _, ht, rfl, rfl⟩ := hts
    exact .lit (.literal (hdenotes t ht))
  cases v with
  | atom name =>
    refine hword (Word.atom_legible name) ?_
    intro t ht
    obtain ⟨hk, rfl⟩ := Token.kind_text_of_word ht
    exact .atom hk
  | integer n =>
    refine hword (Word.integer_legible h) ?_
    intro t ht
    obtain ⟨hk, htext⟩ := Token.kind_text_of_word ht
    have hinteger := Token.Denotes.integer hk
    rwa [htext, String.toList_ofList, Numeral.integerValue_ofInt] at hinteger
  | float x => exact h.elim
  | char spelling =>
    refine hword h ?_
    intro t ht
    obtain ⟨hk, rfl⟩ := Token.kind_text_of_word ht
    exact .char hk
  | string value =>
    refine hword trivial ?_
    intro t ht
    obtain ⟨hk, rfl⟩ := Token.kind_text_of_word ht
    exact .string hk
  | nil =>
    constructor
    · simp only [Literal.words, List.forall_mem_cons]
      exact ⟨Word.mark_legible (by decide), Word.mark_legible (by decide), List.forall_mem_nil _⟩
    · intro ts rest hts
      simp only [Literal.words, spelled_cons, spelled_nil] at hts
      obtain ⟨o, _, ho, rfl, c, _, hc, rfl, rfl⟩ := hts
      exact .nil (Token.is_of_mark ho) (Token.is_of_mark hc)

theorem funName {name : FunName} (h : name.WellFormed) : Prints .funName name.words name := by
  constructor
  · simp only [FunName.words, List.forall_mem_cons]
    exact ⟨Word.atom_legible _, Word.mark_legible (by decide), Word.integer_legible h, List.forall_mem_nil _⟩
  · intro ts rest hts
    simp only [FunName.words, spelled_cons, spelled_nil] at hts
    obtain ⟨a, _, ha, rfl, t, _, ht, rfl, n, us, hn, rfl, rfl⟩ := hts
    obtain ⟨hatom, hname⟩ := Token.kind_text_of_word ha
    obtain ⟨hinteger, harity⟩ := Token.kind_text_of_word hn
    have hwrites := @Writes.funName a t n us hatom (Token.is_of_mark ht) hinteger
    rwa [hname, harity, String.toList_ofList, Numeral.integerValue_ofInt] at hwrites

/-! ## Phrases of all categories -/

theorem element {x : s.Tree} (h : Prints (.bare s) ws x) :
    Prints (.element s) ws (s.keep (.plain x)) :=
  h.lift fun _ _ hx => .element (.plain hx)

theorem tuple {rows : List (List Word)} {xs : List s.Element}
    (h : List.Forall₂ (Prints (.element s)) rows xs) :
    Prints (.bare s) (mark "\x7b" :: Word.closedBy "\x7d" rows) (s.tuple xs) :=
  (closedBy h (by decide)).afterMark (by decide) fun _ _ _ ho hxs => .base (.tuple ho hxs)

theorem list {rows : List (List Word)} {xs : List s.Element}
    (h : List.Forall₂ (Prints (.element s)) rows xs) (hne : xs ≠ []) :
    Prints (.bare s) (mark "[" :: Word.commas rows ++ [] ++ [mark "]"]) (s.list xs none) := by
  have hitems := commas h hne
  constructor
  · simp only [List.forall_mem_append, List.forall_mem_cons]
    exact ⟨⟨⟨Word.mark_legible (by decide), hitems.legible⟩, List.forall_mem_nil _⟩, Word.mark_legible (by decide),
      List.forall_mem_nil _⟩
  · intro ts rest hts
    simp only [spelled_append, spelled_cons, spelled_nil] at hts
    obtain ⟨_, ⟨_, ⟨o, _, ho, rfl, hrows⟩, rfl⟩, c, _, hc, rfl, rfl⟩ := hts
    exact @Writes.list s o _ _ (xs, none) (Token.is_of_mark ho)
      (.proper (hitems.writes hrows) (Token.is_of_mark hc))

theorem improperList {rows : List (List Word)} {xs : List s.Element} {x : s.Element}
    (h : List.Forall₂ (Prints (.element s)) rows xs) (hne : xs ≠ []) (hx : Prints (.tail s) vs x) :
    Prints (.bare s) (mark "[" :: Word.commas rows ++ (mark "|" :: vs) ++ [mark "]"])
      (s.list xs (some x)) := by
  have hitems := commas h hne
  constructor
  · simp only [List.forall_mem_append, List.forall_mem_cons]
    exact ⟨⟨⟨Word.mark_legible (by decide), hitems.legible⟩, Word.mark_legible (by decide), hx.legible⟩,
      Word.mark_legible (by decide), List.forall_mem_nil _⟩
  · intro ts rest hts
    simp only [spelled_append, spelled_cons, spelled_nil] at hts
    obtain ⟨_, ⟨_, ⟨o, _, ho, rfl, hrows⟩, b, _, hb, rfl, hvs⟩, c, _, hc, rfl, rfl⟩ := hts
    exact @Writes.list s o _ _ (xs, some x) (Token.is_of_mark ho)
      (.improper (hitems.writes hrows) (Token.is_of_mark hb) (hx.writes hvs) (Token.is_of_mark hc))

/-- A tail in parentheses is not merged, whatever it is. -/
theorem tail {x : s.Tree} (h : Prints (.bare s) ws x) :
    Prints (.tail s) (mark "(" :: ws ++ [mark ")"]) (s.keep (.plain x)) := by
  constructor
  · simp only [List.forall_mem_append, List.forall_mem_cons]
    exact ⟨⟨Word.mark_legible (by decide), h.legible⟩, Word.mark_legible (by decide), List.forall_mem_nil _⟩
  · intro ts rest hts
    simp only [spelled_append, spelled_cons, spelled_nil] at hts
    obtain ⟨_, ⟨o, _, ho, rfl, hws⟩, c, _, hc, rfl, rfl⟩ := hts
    exact .parensTail (Token.is_of_mark ho) (.plain (h.writes hws)) (.closed (Token.is_of_mark hc))

/-! ## Segments and pairs -/

theorem segmentOf {f₁ f₂ g : Form} {rows : List (List Word)} {x : f₁.Tree} {ms : List f₂.Tree}
    {y : g.Tree} (hx : Prints f₁ ws x) (hms : List.Forall₂ (Prints f₂) rows ms)
    (make : ∀ ⦃o c p ts mid rest⦄, o.is "#<" → Writes f₁ ts x (c :: p :: mid) → c.is ">" →
      p.is "(" → Writes (.sequence f₂ ")") mid ms rest → Writes g (o :: ts) y rest) :
    Prints g (mark "#<" :: ws ++ mark ">" :: Word.arguments rows) y := by
  have hseq : Prints (.sequence f₂ ")") (Word.closedBy ")" rows) ms := closedBy hms (by decide)
  constructor
  · simp only [Word.arguments, List.forall_mem_append, List.forall_mem_cons]
    exact ⟨⟨Word.mark_legible (by decide), hx.legible⟩, Word.mark_legible (by decide), Word.mark_legible (by decide),
      hseq.legible⟩
  · intro ts rest hts
    simp only [Word.arguments, spelled_append, spelled_cons] at hts
    obtain ⟨_, ⟨o, _, ho, rfl, hws⟩, c, _, hc, rfl, p, _, hp, rfl, hrows⟩ := hts
    exact make (Token.is_of_mark ho) (hx.writes hws) (Token.is_of_mark hc) (Token.is_of_mark hp)
      (hseq.writes hrows)

theorem pairOf {f₁ f₂ g : Form} {a : String} {x : f₁.Tree} {y : f₂.Tree} {z : g.Tree}
    (hx : Prints f₁ ws x) (ha : a ∈ Word.marks) (hy : Prints f₂ vs y)
    (make : ∀ ⦃c ts mid rest⦄, Writes f₁ ts x (c :: mid) → c.is a → Writes f₂ mid y rest →
      Writes g ts z rest) :
    Prints g (ws ++ mark a :: vs) z := by
  constructor
  · simp only [List.forall_mem_append, List.forall_mem_cons]
    exact ⟨hx.legible, ha, hy.legible⟩
  · intro ts rest hts
    simp only [spelled_append, spelled_cons] at hts
    obtain ⟨_, hws, c, _, hc, rfl, hvs⟩ := hts
    exact make (hx.writes hws) (Token.is_of_mark hc) (hy.writes hvs)

end Prints

/-! ## Constants -/

mutual

theorem Const.prints : (c : Const) → c.WellFormed → Prints (.bare .const) c.words c
  | .lit _, h => (Prints.literal h).lift fun _ _ => .base
  | .tuple elements, h => Prints.tuple (Const.rows_prints elements h)
  | .list elements none, h => Prints.list (Const.rows_prints elements h.2.1) h.1
  | .list elements (some tail), h =>
    Prints.improperList (Const.rows_prints elements h.2.1) h.1 (Const.prints tail h.2.2).tail
  | .binary segments, h =>
    (Prints.closedBy (Const.segmentRows_prints segments h) (by decide)).afterMark (by decide)
      fun _ _ _ ho hxs => .base (.constBinary ho hxs)
  | .map pairs, h =>
    (Prints.closedBy (Const.pairRows_prints pairs h) (by decide)).afterMark (by decide)
      fun _ _ _ ho hxs => .base (.constMap ho hxs)

theorem Const.rows_prints : (cs : List Const) → Const.AllWellFormed cs →
    List.Forall₂ (Prints (.element .const)) (Const.rows cs) cs
  | [], _ => .nil
  | c :: cs, h => .cons (Const.prints c h.1).element (Const.rows_prints cs h.2)

theorem Const.segmentRows_prints : (segments : List (List Const)) →
    Const.SegmentsWellFormed segments →
    List.Forall₂ (Prints .constSegment) (Const.segmentRows segments) segments
  | [], _ => .nil
  | [] :: _, h => absurd rfl h.1
  | (value :: modifiers) :: segments, h =>
    .cons (Prints.segmentOf (Const.prints value h.2.1.1).element
        (Const.rows_prints modifiers h.2.1.2) fun _ _ _ _ _ _ => .constSegment)
      (Const.segmentRows_prints segments h.2.2)

theorem Const.pairRows_prints : (pairs : List (Const × Const)) → Const.PairsWellFormed pairs →
    List.Forall₂ (Prints .constPair) (Const.pairRows pairs) pairs
  | [], _ => .nil
  | (key, value) :: pairs, h =>
    .cons (Prints.pairOf (Const.prints key h.1).element (by decide) (Const.prints value h.2.1).element
        fun _ _ _ _ hkey hop hvalue => .constPair hkey (.put hop) hvalue)
      (Const.pairRows_prints pairs h.2.2)

end

namespace Prints

theorem closing {cs : List Const} (h : Const.AllWellFormed cs) :
    Prints .closing (Word.closing cs) cs := by
  have hcs : Prints (.sequence (.element .const) "]") _ cs :=
    closedBy (Const.rows_prints cs h) (by decide)
  constructor
  · simp only [Word.closing, List.forall_mem_append, List.forall_mem_cons]
    exact ⟨⟨Word.mark_legible (by decide), Word.mark_legible (by decide), hcs.legible⟩, Word.mark_legible (by decide),
      List.forall_mem_nil _⟩
  · intro ts rest hts
    simp only [Word.closing, spelled_append, spelled_cons, spelled_nil] at hts
    obtain ⟨_, ⟨b, _, hb, rfl, o, _, ho, rfl, hrows⟩, c, _, hc, rfl, rfl⟩ := hts
    exact .annotations (Token.is_of_mark hb) (Token.is_of_mark ho) (hcs.writes hrows)
      (Token.is_of_mark hc)

/-- What is in parentheses, with annotations. -/
theorem parenthesized {g : Form} {x : f.Tree} {y : g.Tree} {cs : List Const} (hx : Prints f ws x)
    (h : Const.AllWellFormed cs)
    (make : ∀ ⦃o ts mid rest⦄, o.is "(" → Writes f ts x mid → Writes .closing mid cs rest →
      Writes g (o :: ts) y rest) :
    Prints g (Word.annotated ws cs) y := by
  have hcs := closing h
  constructor
  · simp only [Word.annotated, List.forall_mem_cons, List.forall_mem_append]
    exact ⟨Word.mark_legible (by decide), hx.legible, hcs.legible⟩
  · intro ts rest hts
    simp only [Word.annotated, spelled_cons, spelled_append] at hts
    obtain ⟨o, _, ho, rfl, mid, hws, hclosing⟩ := hts
    exact make (Token.is_of_mark ho) (hx.writes hws) (hcs.writes hclosing)

theorem annotated {x : f.Tree} {cs : List Const} (hx : Prints f ws x)
    (h : Const.AllWellFormed cs) : Prints (.annotated f) (Word.annotated ws cs) ⟨x, cs⟩ :=
  hx.parenthesized h fun _ _ _ _ ho hx hcs => .parens ho (.plain hx) hcs

/-! ## Names and variables -/

theorem names {close : String} {vars : List String} (h : ∀ v ∈ vars, IsVariable v)
    (hclose : close ∈ Word.marks) :
    Prints (.sequence (.stripped .var) close) (Word.names close vars) vars := by
  refine closedBy (List.forall₂_map_left_iff.2 (List.forall₂_same.2 ?_)) hclose
  intro v hv
  exact (var (h v hv)).lift fun _ _ hv => .stripped (.plain hv)

theorem varList {vars : List String} (h : ∀ v ∈ vars, IsVariable v) :
    Prints .varList (mark "<" :: Word.names ">" vars) vars :=
  (names h (by decide)).afterMark (by decide) fun _ _ _ => .manyVars

theorem arguments {rows : List (List Word)} {args : List (Ann Expr)}
    (h : List.Forall₂ (Prints (.element .expr)) rows args) :
    Prints .arguments (Word.arguments rows) args :=
  (closedBy h (by decide)).afterMark (by decide) fun _ _ _ => .arguments

/-! ## Expressions -/

variable {as bs cs : List Word} {a b c : Ann Expr}

theorem exprVar {name : String} (h : IsVariable name) :
    Prints (.bare .expr) [⟨.var, name⟩] (Expr.var name) :=
  (var h).lift fun _ _ hv => by
    cases hv with
    | varName hk => exact .base (.var hk)

theorem lambda {params : List String} (hparams : ∀ v ∈ params, IsVariable v)
    (hbody : Prints (.element .expr) as a) :
    Prints (.bare .expr) (keyword "fun" :: mark "(" :: Word.names ")" params ++ mark "->" :: as)
      (Expr.lambda params a) := by
  have hparams : Prints (.sequence (.stripped .var) ")") _ params := names hparams (by decide)
  constructor
  · simp only [List.forall_mem_append, List.forall_mem_cons]
    exact ⟨⟨Word.keyword_legible (by decide), Word.mark_legible (by decide), hparams.legible⟩,
      Word.mark_legible (by decide), hbody.legible⟩
  · intro ts rest hts
    simp only [spelled_append, spelled_cons] at hts
    obtain ⟨_, ⟨k, _, hk, rfl, o, _, ho, rfl, hps⟩, r, _, hr, rfl, has⟩ := hts
    exact .base (.lambda (Token.isKeyword_of_word hk) (Token.is_of_mark ho) (hparams.writes hps)
      (Token.is_of_mark hr) (hbody.writes has))

theorem apply {rows : List (List Word)} {args : List (Ann Expr)}
    (hfunction : Prints (.element .expr) as a)
    (hargs : List.Forall₂ (Prints (.element .expr)) rows args) :
    Prints (.bare .expr) (keyword "apply" :: as ++ Word.arguments rows) (Expr.apply a args) := by
  have hargs := arguments hargs
  constructor
  · simp only [List.forall_mem_append, List.forall_mem_cons]
    exact ⟨⟨Word.keyword_legible (by decide), hfunction.legible⟩, hargs.legible⟩
  · intro ts rest hts
    simp only [spelled_append, spelled_cons] at hts
    obtain ⟨_, ⟨k, _, hk, rfl, has⟩, hrows⟩ := hts
    exact .base (.apply (Token.isKeyword_of_word hk) (hfunction.writes has) (hargs.writes hrows))

theorem call {rows : List (List Word)} {args : List (Ann Expr)}
    (hunit : Prints (.element .expr) as a) (hfunction : Prints (.element .expr) bs b)
    (hargs : List.Forall₂ (Prints (.element .expr)) rows args) :
    Prints (.bare .expr) (keyword "call" :: as ++ mark ":" :: bs ++ Word.arguments rows)
      (Expr.call a b args) := by
  have hargs := arguments hargs
  constructor
  · simp only [List.forall_mem_append, List.forall_mem_cons]
    exact ⟨⟨⟨Word.keyword_legible (by decide), hunit.legible⟩, Word.mark_legible (by decide), hfunction.legible⟩,
      hargs.legible⟩
  · intro ts rest hts
    simp only [spelled_append, spelled_cons] at hts
    obtain ⟨_, ⟨_, ⟨k, _, hk, rfl, has⟩, r, _, hr, rfl, hbs⟩, hrows⟩ := hts
    exact .base (.call (Token.isKeyword_of_word hk) (hunit.writes has) (Token.is_of_mark hr)
      (hfunction.writes hbs) (hargs.writes hrows))

theorem primop {name : String} {rows : List (List Word)} {args : List (Ann Expr)}
    (hargs : List.Forall₂ (Prints (.element .expr)) rows args) :
    Prints (.bare .expr) (keyword "primop" :: ⟨.atom, name⟩ :: Word.arguments rows)
      (Expr.primop name args) := by
  have hargs := arguments hargs
  constructor
  · simp only [List.forall_mem_cons]
    exact ⟨Word.keyword_legible (by decide), Word.atom_legible name, hargs.legible⟩
  · intro ts rest hts
    simp only [spelled_cons] at hts
    obtain ⟨k, _, hk, rfl, t, _, ht, rfl, hrows⟩ := hts
    obtain ⟨hatom, rfl⟩ := Token.kind_text_of_word ht
    exact .base (.primop (Token.isKeyword_of_word hk) (.plain (.atom hatom)) (hargs.writes hrows))

theorem seq (hfirst : Prints (.element .expr) as a) (hnext : Prints (.element .expr) bs b) :
    Prints (.bare .expr) (keyword "do" :: as ++ bs) (Expr.seq a b) := by
  constructor
  · simp only [List.forall_mem_append, List.forall_mem_cons]
    exact ⟨⟨Word.keyword_legible (by decide), hfirst.legible⟩, hnext.legible⟩
  · intro ts rest hts
    simp only [spelled_append, spelled_cons] at hts
    obtain ⟨_, ⟨k, _, hk, rfl, has⟩, hbs⟩ := hts
    exact .base (.seq (Token.isKeyword_of_word hk) (hfirst.writes has) (hnext.writes hbs))

theorem letIn {vars : List String} (hvars : ∀ v ∈ vars, IsVariable v)
    (hvalue : Prints (.element .expr) as a) (hbody : Prints (.element .expr) bs b) :
    Prints (.bare .expr)
      (keyword "let" :: mark "<" :: Word.names ">" vars ++ mark "=" :: as ++ keyword "in" :: bs)
      (Expr.letIn vars a b) := by
  have hvars := varList hvars
  constructor
  · have hvars := List.forall_mem_cons.1 hvars.legible
    simp only [List.forall_mem_append, List.forall_mem_cons]
    exact ⟨⟨⟨Word.keyword_legible (by decide), hvars⟩, Word.mark_legible (by decide), hvalue.legible⟩,
      Word.keyword_legible (by decide), hbody.legible⟩
  · intro ts rest hts
    obtain ⟨_, h, hin⟩ := spelled_append.1 hts
    obtain ⟨_, hlet, heq⟩ := spelled_append.1 h
    obtain ⟨k, _, hk, rfl, hnames⟩ := spelled_cons.1 hlet
    obtain ⟨e, _, he, rfl, has⟩ := spelled_cons.1 heq
    obtain ⟨i, _, hi, rfl, hbs⟩ := spelled_cons.1 hin
    exact .base (.letIn (Token.isKeyword_of_word hk) (hvars.writes hnames) (Token.is_of_mark he)
      (hvalue.writes has) (Token.is_of_keyword hi) (hbody.writes hbs))

theorem letRec {ds : List (Ann Definition)} (hds : Prints (.run .definition "in") bs ds)
    (hbody : Prints (.element .expr) as a) :
    Prints (.bare .expr) (keyword "letrec" :: bs ++ as) (Expr.letRec ds a) := by
  constructor
  · simp only [List.forall_mem_append, List.forall_mem_cons]
    exact ⟨⟨Word.keyword_legible (by decide), hds.legible⟩, hbody.legible⟩
  · intro ts rest hts
    simp only [spelled_append, spelled_cons] at hts
    obtain ⟨_, ⟨k, _, hk, rfl, hbs⟩, has⟩ := hts
    exact .base (.letRec (Token.isKeyword_of_word hk) (hds.writes hbs) (hbody.writes has))

theorem caseOf {clauses : List (Ann Clause)} (hsubject : Prints (.element .expr) as a)
    (hclauses : Prints (.run .clause "end") bs clauses) :
    Prints (.bare .expr) (keyword "case" :: as ++ keyword "of" :: bs) (Expr.caseOf a clauses) := by
  constructor
  · simp only [List.forall_mem_append, List.forall_mem_cons]
    exact ⟨⟨Word.keyword_legible (by decide), hsubject.legible⟩, Word.keyword_legible (by decide),
      hclauses.legible⟩
  · intro ts rest hts
    simp only [spelled_append, spelled_cons] at hts
    obtain ⟨_, ⟨k, _, hk, rfl, has⟩, o, _, ho, rfl, hbs⟩ := hts
    exact .base (.caseOf (Token.isKeyword_of_word hk) (hsubject.writes has) (Token.is_of_keyword ho)
      (hclauses.writes hbs))

theorem receive {clauses : List (Ann Clause)} (hclauses : Prints (.run .clause "after") cs clauses)
    (htimeout : Prints (.element .expr) as a) (haction : Prints (.element .expr) bs b) :
    Prints (.bare .expr) (keyword "receive" :: cs ++ as ++ mark "->" :: bs)
      (Expr.receive clauses a b) := by
  constructor
  · simp only [List.forall_mem_append, List.forall_mem_cons]
    exact ⟨⟨⟨Word.keyword_legible (by decide), hclauses.legible⟩, htimeout.legible⟩,
      Word.mark_legible (by decide), haction.legible⟩
  · intro ts rest hts
    simp only [spelled_append, spelled_cons] at hts
    obtain ⟨_, ⟨_, ⟨k, _, hk, rfl, hcs⟩, has⟩, r, _, hr, rfl, hbs⟩ := hts
    exact .base (.receive (Token.isKeyword_of_word hk) (hclauses.writes hcs) (htimeout.writes has)
      (Token.is_of_mark hr) (haction.writes hbs))

theorem tryOf {vars handlerVars : List String} (hbody : Prints (.element .expr) as a)
    (hvars : ∀ v ∈ vars, IsVariable v) (hsuccess : Prints (.element .expr) bs b)
    (hhandlerVars : ∀ v ∈ handlerVars, IsVariable v) (hhandler : Prints (.element .expr) cs c) :
    Prints (.bare .expr)
      (keyword "try" :: as ++ keyword "of" :: mark "<" :: Word.names ">" vars ++ mark "->" :: bs ++
        keyword "catch" :: mark "<" :: Word.names ">" handlerVars ++ mark "->" :: cs)
      (Expr.tryOf a vars b handlerVars c) := by
  have hvars := varList hvars
  have hhandlerVars := varList hhandlerVars
  constructor
  · have hvars := List.forall_mem_cons.1 hvars.legible
    have hhandlerVars := List.forall_mem_cons.1 hhandlerVars.legible
    simp only [List.forall_mem_append, List.forall_mem_cons]
    exact ⟨⟨⟨⟨⟨Word.keyword_legible (by decide), hbody.legible⟩, Word.keyword_legible (by decide), hvars⟩,
      Word.mark_legible (by decide), hsuccess.legible⟩, Word.keyword_legible (by decide), hhandlerVars⟩,
      Word.mark_legible (by decide), hhandler.legible⟩
  · intro ts rest hts
    obtain ⟨_, h, hthen'⟩ := spelled_append.1 hts
    obtain ⟨_, h, hcatch⟩ := spelled_append.1 h
    obtain ⟨_, h, hthen⟩ := spelled_append.1 h
    obtain ⟨_, htry, hof⟩ := spelled_append.1 h
    obtain ⟨k, _, hk, rfl, has⟩ := spelled_cons.1 htry
    obtain ⟨o, _, ho, rfl, hnames⟩ := spelled_cons.1 hof
    obtain ⟨r, _, hr, rfl, hbs⟩ := spelled_cons.1 hthen
    obtain ⟨h, _, hh, rfl, hhandlers⟩ := spelled_cons.1 hcatch
    obtain ⟨r', _, hr', rfl, hcs⟩ := spelled_cons.1 hthen'
    exact .base (.tryOf (Token.isKeyword_of_word hk) (hbody.writes has) (Token.is_of_keyword ho)
      (hvars.writes hnames) (Token.is_of_mark hr) (hsuccess.writes hbs) (Token.is_of_keyword hh)
      (hhandlerVars.writes hhandlers) (Token.is_of_mark hr') (hhandler.writes hcs))

theorem values {rows : List (List Word)} {es : List (Ann Expr)}
    (h : List.Forall₂ (Prints (.element .expr)) rows es) :
    Prints (.bare .expr) (mark "<" :: Word.closedBy ">" rows) (Expr.values es) :=
  (closedBy h (by decide)).afterMark (by decide) fun _ _ _ ho hxs => .base (.values ho hxs)

theorem newMap {rows : List (List Word)} {pairs : List MapPair}
    (h : List.Forall₂ (Prints .mapPair) rows pairs) :
    Prints .mapBody (Word.commas rows ++ [] ++ [mark "\x7d~"]) (pairs, none) := by
  cases h with
  | nil =>
    refine ⟨List.forall_mem_singleton.2 (Word.mark_legible (by decide)), ?_⟩
    intro ts rest hts
    simp only [Word.commas, List.nil_append, spelled_cons, spelled_nil] at hts
    obtain ⟨c, _, hc, rfl, rfl⟩ := hts
    exact .emptyMap (Token.is_of_mark hc)
  | cons hx hxs =>
    have hitems := commas (.cons hx hxs) (by simp)
    constructor
    · simp only [List.append_nil, List.forall_mem_append, List.forall_mem_singleton]
      exact ⟨hitems.legible, Word.mark_legible (by decide)⟩
    · intro ts rest hts
      simp only [List.append_nil, spelled_append, spelled_cons, spelled_nil] at hts
      obtain ⟨_, hrows, c, _, hc, rfl, rfl⟩ := hts
      exact .newMap (hitems.writes hrows) (Token.is_of_mark hc)

theorem changedMap {rows : List (List Word)} {pairs : List MapPair}
    (h : List.Forall₂ (Prints .mapPair) rows pairs) (hbase : Prints (.element .expr) as a) :
    Prints .mapBody (Word.commas rows ++ (mark "|" :: as) ++ [mark "\x7d~"]) (pairs, some a) := by
  cases h with
  | nil =>
    constructor
    · simp only [Word.commas, List.nil_append, List.forall_mem_append, List.forall_mem_cons]
      exact ⟨⟨Word.mark_legible (by decide), hbase.legible⟩, Word.mark_legible (by decide), List.forall_mem_nil _⟩
    · intro ts rest hts
      simp only [Word.commas, List.nil_append, spelled_append, spelled_cons, spelled_nil] at hts
      obtain ⟨_, ⟨b, _, hb, rfl, has⟩, c, _, hc, rfl, rfl⟩ := hts
      exact .sameMap (Token.is_of_mark hb) (hbase.writes has) (Token.is_of_mark hc)
  | cons hx hxs =>
    have hitems := commas (.cons hx hxs) (by simp)
    constructor
    · simp only [List.forall_mem_append, List.forall_mem_cons]
      exact ⟨⟨hitems.legible, Word.mark_legible (by decide), hbase.legible⟩, Word.mark_legible (by decide),
        List.forall_mem_nil _⟩
    · intro ts rest hts
      simp only [spelled_append, spelled_cons, spelled_nil] at hts
      obtain ⟨_, ⟨_, hrows, b, _, hb, rfl, has⟩, c, _, hc, rfl, rfl⟩ := hts
      exact .changedMap (hitems.writes hrows) (Token.is_of_mark hb) (hbase.writes has)
        (Token.is_of_mark hc)

theorem definition {name : FunName} {function : Ann Expr} {annotations : List Const}
    (hname : name.WellFormed) (hlambda : function.node.IsFunction)
    (hfunction : Prints (.element .expr) as function) (h : Const.AllWellFormed annotations) :
    Prints .definition (Word.annotated name.words annotations ++ mark "=" :: as)
      ⟨⟨name, function⟩, annotations⟩ := by
  refine ((funName hname).annotated h).pairOf (by decide) hfunction ?_
  intro e ts mid rest hname he hfunction
  obtain ⟨function, cs⟩ := function
  cases function with
  | lambda params body => exact .definition hname he hfunction
  | _ => exact hlambda.elim

theorem clause {rows : List (List Word)} {ps : List Pattern} {annotations : List Const}
    (hps : List.Forall₂ (Prints (.element .pattern)) rows ps)
    (hguard : Prints (.element .expr) as a) (hbody : Prints (.element .expr) bs b)
    (h : Const.AllWellFormed annotations) :
    Prints .clause
      (Word.annotated
        (mark "<" :: Word.closedBy ">" rows ++ keyword "when" :: as ++ mark "->" :: bs) annotations)
      ⟨⟨ps, a, b⟩, annotations⟩ := by
  have hps : Prints (.sequence (.element .pattern) ">") _ ps := closedBy hps (by decide)
  have hclause : Prints .bareClause
      (mark "<" :: Word.closedBy ">" rows ++ keyword "when" :: as ++ mark "->" :: bs) ⟨ps, a, b⟩ := by
    constructor
    · simp only [List.forall_mem_append, List.forall_mem_cons]
      exact ⟨⟨⟨Word.mark_legible (by decide), hps.legible⟩, Word.keyword_legible (by decide), hguard.legible⟩,
        Word.mark_legible (by decide), hbody.legible⟩
    · intro ts rest hts
      simp only [spelled_append, spelled_cons] at hts
      obtain ⟨_, ⟨_, ⟨o, _, ho, rfl, hrows⟩, w, _, hw, rfl, has⟩, r, _, hr, rfl, hbs⟩ := hts
      exact .bareClause (.manyPatterns (Token.is_of_mark ho) (hps.writes hrows))
        (Token.is_of_keyword hw) (hguard.writes has) (Token.is_of_mark hr) (hbody.writes hbs)
  exact hclause.parenthesized h fun _ _ _ _ => .parensClause

theorem mapOp (op : MapOp) : Prints .mapOp [mark op.symbol] op := by
  cases op with
  | put =>
    refine ⟨List.forall_mem_singleton.2 (Word.mark_legible (by decide)), ?_⟩
    intro ts rest hts
    simp only [spelled_cons, spelled_nil] at hts
    obtain ⟨t, _, ht, rfl, rfl⟩ := hts
    exact .put (Token.is_of_mark ht)
  | update =>
    refine ⟨List.forall_mem_singleton.2 (Word.mark_legible (by decide)), ?_⟩
    intro ts rest hts
    simp only [spelled_cons, spelled_nil] at hts
    obtain ⟨t, _, ht, rfl, rfl⟩ := hts
    exact .update (Token.is_of_mark ht)

theorem mapPair (op : MapOp) (hkey : Prints (.element .expr) as a)
    (hvalue : Prints (.element .expr) bs b) :
    Prints .mapPair (as ++ mark op.symbol :: bs) ⟨a, b, op⟩ := by
  have hop := mapOp op
  constructor
  · simp only [List.forall_mem_append, List.forall_mem_cons]
    exact ⟨hkey.legible, hop.legible _ (by simp), hvalue.legible⟩
  · intro ts rest hts
    simp only [spelled_append, spelled_cons] at hts
    obtain ⟨_, has, t, us, ht, rfl, hbs⟩ := hts
    have hspelled : Spelled [mark op.symbol] (t :: us) us :=
      spelled_cons.2 ⟨t, us, ht, rfl, spelled_nil.2 rfl⟩
    exact .mapPair (hkey.writes has) (hop.writes hspelled) (hvalue.writes hbs)

end Prints

mutual

theorem Expr.prints : (e : Expr) → e.WellFormed → Prints (.bare .expr) e.words e
  | .var _, h => .exprVar h
  | .lit _, h => (Prints.literal h).lift fun _ _ => .base
  | .funRef _, h => (Prints.funName h).lift fun _ _ hname => .base (.funRef hname)
  | .lambda _ body, h => .lambda h.1 (Expr.ann_prints body h.2)
  | .apply function args, h => .apply (Expr.ann_prints function h.1) (Expr.rows_prints args h.2)
  | .call unit function args, h =>
    .call (Expr.ann_prints unit h.1) (Expr.ann_prints function h.2.1) (Expr.rows_prints args h.2.2)
  | .primop _ args, h => .primop (Expr.rows_prints args h)
  | .seq first next, h => .seq (Expr.ann_prints first h.1) (Expr.ann_prints next h.2)
  | .letIn _ value body, h =>
    .letIn h.1 (Expr.ann_prints value h.2.1) (Expr.ann_prints body h.2.2)
  | .letRec definitions body, h =>
    .letRec (Definition.words_prints (by decide) definitions h.1) (Expr.ann_prints body h.2)
  | .caseOf subject clauses, h =>
    .caseOf (Expr.ann_prints subject h.1) (Clause.words_prints (by decide) clauses h.2)
  | .receive clauses timeout action, h =>
    .receive (Clause.words_prints (by decide) clauses h.1) (Expr.ann_prints timeout h.2.1)
      (Expr.ann_prints action h.2.2)
  | .tryOf body _ success _ handler, h =>
    .tryOf (Expr.ann_prints body h.1) h.2.1 (Expr.ann_prints success h.2.2.1) h.2.2.2.1
      (Expr.ann_prints handler h.2.2.2.2)
  | .catching body, h =>
    (Expr.ann_prints body h).afterKeyword (by decide) fun _ _ _ hk hbody => .base (.catching hk hbody)
  | .tuple elements, h => Prints.tuple (s := .expr) (Expr.rows_prints elements h)
  | .list elements none, h => Prints.list (s := .expr) (Expr.rows_prints elements h.2.1) h.1
  | .list elements (some tail), h =>
    Prints.improperList (s := .expr) (Expr.rows_prints elements h.2.1) h.1
      (Expr.tail_prints tail h.2.2)
  | .binary segments, h =>
    (Prints.closedBy (Segment.rows_prints segments h) (by decide)).afterMark (by decide)
      fun _ _ _ ho hxs => .base (.binary ho hxs)
  | .map pairs none, h =>
    (Prints.newMap (MapPair.rows_prints pairs h.1)).afterMark (by decide)
      fun _ _ _ ho hbody => .base (.map ho hbody)
  | .map pairs (some base), h =>
    (Prints.changedMap (MapPair.rows_prints pairs h.1) (Expr.ann_prints base h.2)).afterMark
      (by decide) fun _ _ _ ho hbody => .base (.map ho hbody)
  | .values elements, h => .values (Expr.rows_prints elements h)

theorem Expr.ann_prints : (e : Ann Expr) → Expr.AnnWellFormed e →
    Prints (.element .expr) (Expr.annWords e) e
  | ⟨e, _⟩, h => ((Expr.prints e h.1).annotated h.2).lift fun _ _ => .element

theorem Expr.tail_prints : (e : Ann Expr) → Expr.AnnWellFormed e →
    Prints (.tail .expr) (Expr.annWords e) e
  | ⟨e, _⟩, h =>
    (Expr.prints e h.1).parenthesized h.2 fun _ _ _ _ ho he hcs => .parensTail ho (.plain he) hcs

theorem Expr.rows_prints : (es : List (Ann Expr)) → Expr.AllWellFormed es →
    List.Forall₂ (Prints (.element .expr)) (Expr.rows es) es
  | [], _ => .nil
  | e :: es, h => .cons (Expr.ann_prints e h.1) (Expr.rows_prints es h.2)

theorem Definition.words_prints {stop : String} (hstop : stop ∈ Word.keywords) :
    (ds : List (Ann Definition)) → Definition.AllWellFormed ds →
    Prints (.run .definition stop) (Definition.words stop ds) ds
  | [], _ => .runNil hstop
  | ⟨⟨_, function⟩, _⟩ :: ds, h =>
    .runCons (.definition h.1 h.2.1 (Expr.ann_prints function h.2.2.1) h.2.2.2.1)
      (Definition.words_prints hstop ds h.2.2.2.2)

theorem Clause.words_prints {stop : String} (hstop : stop ∈ Word.keywords) :
    (cs : List (Ann Clause)) → Clause.AllWellFormed cs →
    Prints (.run .clause stop) (Clause.words stop cs) cs
  | [], _ => .runNil hstop
  | ⟨⟨patterns, guard, body⟩, _⟩ :: cs, h =>
    .runCons (.clause (Pattern.rows_prints patterns h.1) (Expr.ann_prints guard h.2.1)
        (Expr.ann_prints body h.2.2.1) h.2.2.2.1)
      (Clause.words_prints hstop cs h.2.2.2.2)

theorem Segment.rows_prints : (segments : List Segment) → Segment.AllWellFormed segments →
    List.Forall₂ (Prints .segment) (Segment.rows segments) segments
  | [], _ => .nil
  | ⟨value, size, unit, type, flags⟩ :: segments, h =>
    .cons (Prints.segmentOf (Expr.ann_prints value h.1)
        (.cons (Expr.ann_prints size h.2.1) (.cons (Expr.ann_prints unit h.2.2.1)
          (.cons (Expr.ann_prints type h.2.2.2.1) (.cons (Expr.ann_prints flags h.2.2.2.2.1) .nil))))
        fun _ _ _ _ _ _ => .segment)
      (Segment.rows_prints segments h.2.2.2.2.2)

theorem MapPair.rows_prints : (pairs : List MapPair) → MapPair.AllWellFormed pairs →
    List.Forall₂ (Prints .mapPair) (MapPair.rows pairs) pairs
  | [], _ => .nil
  | ⟨key, value, op⟩ :: pairs, h =>
    .cons (.mapPair op (Expr.ann_prints key h.1) (Expr.ann_prints value h.2.1))
      (MapPair.rows_prints pairs h.2.2)

theorem Pattern.prints : (p : Pattern) → p.WellFormed → Prints (.bare .pattern) p.words p
  | .var _, h => (Prints.var h).lift fun _ _ hv => by
    cases hv with
    | varName hk => exact .base (.patternVar hk)
  | .lit _, h => (Prints.literal h).lift fun _ _ => .base
  | .tuple elements, h => Prints.tuple (Pattern.rows_prints elements h)
  | .list elements none, h => Prints.list (Pattern.rows_prints elements h.2.1) h.1
  | .list elements (some tail), h =>
    Prints.improperList (Pattern.rows_prints elements h.2.1) h.1 (Pattern.prints tail h.2.2).tail
  | .binary segments, h =>
    (Prints.closedBy (PatternSegment.rows_prints segments h) (by decide)).afterMark (by decide)
      fun _ _ _ ho hxs => .base (.patternBinary ho hxs)
  | .map pairs, h =>
    (Prints.closedBy (PatternPair.rows_prints pairs h) (by decide)).afterMark (by decide)
      fun _ _ _ ho hxs => .base (.patternMap ho hxs)
  | .alias _ pattern, h =>
    (Prints.var h.1).pairOf (by decide) (Pattern.prints pattern h.2).element
      fun _ _ _ _ hv he hp => by
        cases hv with
        | varName hk => exact .base (.aliased hk he hp)

theorem Pattern.rows_prints : (ps : List Pattern) → Pattern.AllWellFormed ps →
    List.Forall₂ (Prints (.element .pattern)) (Pattern.rows ps) ps
  | [], _ => .nil
  | p :: ps, h => .cons (Pattern.prints p h.1).element (Pattern.rows_prints ps h.2)

theorem PatternSegment.rows_prints : (segments : List PatternSegment) →
    PatternSegment.AllWellFormed segments →
    List.Forall₂ (Prints .patternSegment) (PatternSegment.rows segments) segments
  | [], _ => .nil
  | ⟨pattern, size, unit, type, flags⟩ :: segments, h =>
    .cons (Prints.segmentOf (Pattern.prints pattern h.1).element
        (.cons (Expr.ann_prints size h.2.1) (.cons (Expr.ann_prints unit h.2.2.1)
          (.cons (Expr.ann_prints type h.2.2.2.1) (.cons (Expr.ann_prints flags h.2.2.2.2.1) .nil))))
        fun _ _ _ _ _ _ => .patternSegment)
      (PatternSegment.rows_prints segments h.2.2.2.2.2)

theorem PatternPair.rows_prints : (pairs : List PatternPair) → PatternPair.AllWellFormed pairs →
    List.Forall₂ (Prints .patternPair) (PatternPair.rows pairs) pairs
  | [], _ => .nil
  | ⟨key, pattern⟩ :: pairs, h =>
    .cons (Prints.pairOf (Expr.ann_prints key h.1) (by decide) (Pattern.prints pattern h.2.1).element
        fun _ _ _ _ => .patternPair)
      (PatternPair.rows_prints pairs h.2.2)

end

/-! ## Modules -/

theorem Module.prints {m : Module} (h : m.WellFormed) : Prints .module m.words m := by
  obtain ⟨name, exports, attributes, definitions⟩ := m
  obtain ⟨hexports, hattributes, hdefinitions⟩ := h
  have hexports' : Prints (.sequence (.stripped .funName) "]")
      (Word.closedBy "]" (exports.map FunName.words)) exports := by
    refine .closedBy (List.forall₂_map_left_iff.2 (List.forall₂_same.2 ?_)) (by decide)
    intro f hf
    exact (Prints.funName (hexports f hf)).lift fun _ _ hname => .stripped (.plain hname)
  have hattributes' : Prints (.sequence .attribute "]")
      (Word.closedBy "]" (attributes.map Module.attributeWords)) attributes := by
    refine .closedBy (List.forall₂_map_left_iff.2 (List.forall₂_same.2 ?_)) (by decide)
    rintro ⟨key, value⟩ ha
    exact (Prints.atom key).pairOf (by decide) (Const.prints value (hattributes _ ha)).element
      fun _ _ _ _ hkey he hvalue => .attributePair (.plain hkey) he hvalue
  have hdefinitions' : Prints (.run .definition "end") _ definitions :=
    Definition.words_prints (by decide) definitions hdefinitions
  constructor
  · simp only [Module.words, List.forall_mem_append, List.forall_mem_cons]
    exact ⟨⟨⟨Word.keyword_legible (by decide), Word.atom_legible name, Word.mark_legible (by decide),
      hexports'.legible⟩, Word.keyword_legible (by decide), Word.mark_legible (by decide),
      hattributes'.legible⟩, hdefinitions'.legible⟩
  · intro ts rest hts
    simp only [Module.words, spelled_append, spelled_cons] at hts
    obtain ⟨_, ⟨_, ⟨k, _, hk, rfl, n, _, hn, rfl, o, _, ho, rfl, hes⟩, a, _, ha, rfl, o', _, ho', rfl,
      has⟩, hds⟩ := hts
    obtain ⟨hatom, rfl⟩ := Token.kind_text_of_word hn
    exact .module (Token.is_of_keyword hk) hatom (Token.is_of_mark ho) (hexports'.writes hes)
      (Token.is_of_keyword ha) (Token.is_of_mark ho') (hattributes'.writes has)
      (hdefinitions'.writes hds)

/-! ## Texts -/

theorem Word.length_place (offset : Nat) (ws : List Word) :
    (Word.place offset ws).length = ws.length := by
  have h := congrArg List.length (Word.map_word_place offset ws)
  rwa [List.length_map] at h

/-- The integers among legible words are short. -/
theorem Word.short_of_mem_place {offset : Nat} (h : ∀ w ∈ ws, w.Legible) {t : Token}
    (ht : t ∈ Word.place offset ws) : t.Short numeralLimit := by
  intro hk
  have hmem : t.word ∈ ws := by
    rw [← Word.map_word_place offset ws]
    exact List.mem_map_of_mem ht
  have hlegible := h _ hmem
  rw [Token.word, hk] at hlegible
  obtain ⟨n, hn, hshort⟩ := hlegible
  change t.text.toList = Numeral.ofInt n at hn
  rw [hn, Numeral.sign_ofInt]
  exact hshort

/-- A text is read if it has tokens and the tokens are read. -/
theorem readText_eq_ok {α : Type} {parse : List Token → Except ParseFailure α}
    {file : Option String} {text : String} {x : α} :
    readText parse file text = .ok x ↔
      ∃ stream, tokensOfText file text = .ok stream ∧ parse stream.tokens = .ok x := by
  rw [readText]
  cases tokensOfText file text with
  | error e => simp [bind, Except.bind]
  | ok stream =>
    cases hparse : parse stream.tokens <;> simp [bind, Except.bind, Except.mapError, hparse]

/-- A text of legible words is read as its words. -/
theorem readText_written {α : Type} {parse : List Token → Except ParseFailure α} {x : α}
    (h : ∀ w ∈ ws, w.Legible) (hparse : parse (Word.place 0 ws) = .ok x) (file : Option String) :
    readText parse file (String.ofList (Word.written ws)) = .ok x := by
  refine readText_eq_ok.2 ⟨⟨Word.place 0 ws, (Word.written ws).length⟩, ?_, hparse⟩
  rw [tokensOfText, String.toList_ofList, TokenStream.ofText, Word.scan_written h 0]
  rfl

theorem Module.readText_of_wellFormed {m : Ann Module} {depth : Nat} (h : Module.AnnWellFormed m)
    (hdepth : (Module.annWords m).length < depth) (file : Option String) :
    readText (moduleOfTokens depth) file (Module.print m) = .ok m := by
  have hm : Prints (.annotated .module) (Module.annWords m) m := (Module.prints h.1).annotated h.2
  refine readText_written hm.legible ?_ file
  refine moduleOfTokens_complete (by rwa [Word.length_place]) ?_ (hm.writes (spelled_place 0 _))
  exact fun t ht => Word.short_of_mem_place hm.legible ht

theorem Expr.readText_of_wellFormed {e : Ann Expr} {depth : Nat} (h : Expr.AnnWellFormed e)
    (hdepth : (Expr.annWords e).length < depth) (file : Option String) :
    readText (exprOfTokens depth) file (Expr.print e) = .ok e := by
  have he : Prints (.annotated (.bare .expr)) (Expr.annWords e) e := by
    obtain ⟨node, annotations⟩ := e
    exact (Expr.prints node h.1).annotated h.2
  refine readText_written he.legible ?_ file
  refine exprOfTokens_complete (by rwa [Word.length_place]) ?_ (he.writes (spelled_place 0 _))
  exact fun t ht => Word.short_of_mem_place he.legible ht

/-- What is printed is read again, if the nesting that is followed exceeds the number of words. -/
theorem readText_print :
    (∀ (m : Ann Module) (file : Option String) (depth : Nat), Module.AnnWellFormed m →
      (Module.annWords m).length < depth →
      readText (moduleOfTokens depth) file (Module.print m) = .ok m) ∧
    (∀ (e : Ann Expr) (file : Option String) (depth : Nat), Expr.AnnWellFormed e →
      (Expr.annWords e).length < depth →
      readText (exprOfTokens depth) file (Expr.print e) = .ok e) :=
  ⟨fun _ file _ h hdepth => Module.readText_of_wellFormed h hdepth file,
    fun _ file _ h hdepth => Expr.readText_of_wellFormed h hdepth file⟩

/-- The tail of this list is a list of its own, and stays one. -/
theorem readText_print_tail :
    let e : Ann Expr := ⟨.list [⟨.lit (.atom "it's"), []⟩]
      (some ⟨.list [⟨.lit (.integer (-7)), []⟩] none, []⟩), [.lit (.string "a\\b")]⟩
    let m : Ann Module := ⟨⟨"m", [⟨"f", 0⟩], [], [⟨⟨⟨"f", 0⟩, ⟨.lambda ["X"] e, []⟩⟩, []⟩]⟩, []⟩
    Module.AnnWellFormed m ∧ Expr.AnnWellFormed e ∧
      readText (moduleOfTokens 100) none (Module.print m) = .ok m ∧
      readText (exprOfTokens 100) none (Expr.print e) = .ok e := by
  intro e m
  have hinteger : Numeral.Short (-7) := by decide
  have he : Expr.AnnWellFormed e := by
    simp [e, Expr.AnnWellFormed, Expr.WellFormed, Expr.AllWellFormed, Expr.TailWellFormed,
      Literal.WellFormed, Const.AllWellFormed, Const.WellFormed, hinteger]
  have hm : Module.AnnWellFormed m := by
    have harity : Numeral.Short 0 := by decide
    have hvar : IsVariable "X" := by decide
    simpa [m, Module.AnnWellFormed, Module.WellFormed, FunName.WellFormed, Definition.AllWellFormed,
      Expr.IsFunction, Expr.AnnWellFormed, Expr.WellFormed, Const.AllWellFormed, harity, hvar]
      using he
  exact ⟨hm, he, readText_print.1 m none 100 hm (by decide), readText_print.2 e none 100 he (by decide)⟩

end CallGraph
