import CallGraph.Proofs.Parsing.Endings
import CallGraph.Proofs.Parsing.Naturality
import CallGraph.Proofs.RoundTrip

/-!
Parts of programs, and how they are put together. A text that is read on its own as a part is read in
the same way wherever its words stand, in whatever places, as long as the token after them does not
make the part longer. So rows of parts are read by the parsers of the level that reads the parts.
-/

namespace CallGraph

open CallGraph.Parser
open Word (mark keyword)

/-! ## Parts -/

/-- The parts of programs that can be read on their own. -/
inductive Part where
  | phrase (s : Category)
  /-- An atom, perhaps annotated. -/
  | name
  | varName
  /-- Variables in angle brackets, or one without. -/
  | varList
  | constSegment
  | constPair
  | patternSegment
  | patternPair
  | segment
  | mapPair
  | clause
  | definition
  | exportedName
  | attribute
  | unit

abbrev Part.form : Part → Form
  | .phrase s => .element s
  | .name => .annotated .atom
  | .varName => .stripped .var
  | .varList => .varList
  | .constSegment => .constSegment
  | .constPair => .constPair
  | .patternSegment => .patternSegment
  | .patternPair => .patternPair
  | .segment => .segment
  | .mapPair => .mapPair
  | .clause => .clause
  | .definition => .definition
  | .exportedName => .stripped .funName
  | .attribute => .attribute
  | .unit => .annotated .module

/-- What is read as a part. -/
abbrev Part.Tree (c : Part) : Type := c.form.Tree

namespace Level

variable {l : Level}

def phrase (l : Level) : (s : Category) → Parser s.Element
  | .const => l.constant
  | .pattern => l.plainPattern
  | .expr => l.expr

/-- The parser of a level for a part. -/
def part (l : Level) : (c : Part) → Parser c.Tree
  | .phrase s => l.phrase s
  | .name => l.atom
  | .varName => l.variableName
  | .varList => l.varList
  | .constSegment => l.constSegment
  | .constPair => l.constPair
  | .patternSegment => l.patternSegment
  | .patternPair => l.patternPair
  | .segment => l.exprSegment
  | .mapPair => l.mapPair
  | .clause => l.clause
  | .definition => l.definition
  | .exportedName => do return (← l.funName).node
  | .attribute => l.attributePair
  | .unit => l.unit

theorem part_sound (hl : l.Sound) (c : Part) : c.form.Sound (l.part c) := by
  match c with
  | .phrase .const => exact constant_sound hl
  | .phrase .pattern => exact plainPattern_sound hl
  | .phrase .expr => exact expr_sound hl
  | .name => exact hl.atom
  | .varName => exact variableName_sound hl
  | .varList => exact varList_sound hl
  | .constSegment => exact constSegment_sound hl
  | .constPair => exact constPair_sound hl
  | .patternSegment => exact patternSegment_sound hl
  | .patternPair => exact patternPair_sound hl
  | .segment => exact exprSegment_sound hl
  | .mapPair => exact mapPair_sound hl
  | .clause => exact clause_sound hl
  | .definition => exact definition_sound hl
  | .exportedName =>
    intro ts x rest h
    obtain ⟨a, _, ha, h⟩ := bind_eq_ok.1 h
    obtain ⟨rfl, rfl⟩ := pure_eq_ok.1 h
    exact .stripped (hl.funName ha)
  | .attribute => exact attributePair_sound hl
  | .unit => exact hl.unit

theorem steady_phrase (hl : l.Steady) (s : Category) : Parser.Steady l.digits (l.phrase s) := by
  cases s with
  | const => exact steady_constant hl
  | pattern => exact steady_plainPattern hl
  | expr => exact hl.expr

theorem closes_part (hl : l.Steady) (hs : l.Stops) (c : Part) : Closes c.form.Ends (l.part c) := by
  match c with
  | .phrase .const => exact (closes_constant hs).mono fun _ _ => trivial
  | .phrase .pattern => exact closes_plainPattern hs
  | .phrase .expr => exact hs.expr
  | .name => exact hs.atom.mono fun _ _ => trivial
  | .varName => exact (closes_variableName hs).mono fun _ _ => trivial
  | .varList => exact (closes_varList hl hs).mono fun _ _ => trivial
  | .constSegment => exact closes_constSegment hl
  | .constPair => exact (closes_constPair hl hs).mono fun _ _ => trivial
  | .patternSegment => exact closes_patternSegment hl
  | .patternPair => exact closes_patternPair hl hs
  | .segment => exact closes_exprSegment hl
  | .mapPair => exact closes_mapPair hl hs
  | .clause => exact closes_clause hl hs
  | .definition => exact closes_definition hl hs
  | .exportedName => exact (hs.funName.bind_pure Ann.node).mono fun _ _ => trivial
  | .attribute => exact (closes_attributePair hl hs).mono fun _ _ => trivial
  | .unit => exact hl.unit_closes.mono fun _ _ => trivial

end Level

/-! ## Places -/

/-- Every name is kept. -/
def Renaming.keeping : Renaming := ⟨id, id, id⟩

theorem Renaming.token_keeping (t : Token) : keeping.token t = t := by
  obtain ⟨kind, text, offset⟩ := t
  cases kind <;> rfl

theorem Moving.map_token_id (ts : List Token) : ts.map (Moving.mk .keeping id).token = ts := by
  rw [show (Moving.mk .keeping id).token = id from funext Renaming.token_keeping, List.map_id]

/-- If every token is moved to the start of the text, only its word is left. -/
theorem Moving.map_token_start (ts : List Token) :
    ts.map (Moving.mk .keeping fun _ => 0).token =
      (ts.map Token.word).map fun w => ⟨w.kind, w.text, 0⟩ := by
  rw [List.map_map]
  refine List.map_congr_left fun t _ => ?_
  change { Renaming.keeping.token t with offset := 0 } = _
  rw [Renaming.token_keeping]
  rfl

/-- A parser that does not look at the places of tokens. -/
def Parser.Placeless {α : Type} (p : Parser α) : Prop :=
  ∃ f : α → α, ∀ place, Renames ⟨.keeping, place⟩ f p p

/-- Tokens with the same words are read as the same. -/
theorem Parser.Placeless.read {α : Type} {p : Parser α} {ts us : List Token} {x : α}
    (hp : p.Placeless) (hus : us.map Token.word = ts.map Token.word) (h : p ts = .ok (x, [])) :
    p us = .ok (x, []) := by
  obtain ⟨f, hf⟩ := hp
  -- Where every token stays in its place, what is read is not changed.
  have hkept {ts rest : List Token} {x : α} (h : p ts = .ok (x, rest)) : f x = x := by
    have hmoved := hf id ts
    rw [Moving.map_token_id, h] at hmoved
    exact (congrArg Prod.fst (Except.ok.inj hmoved)).symm
  have heq : (Moving.mk .keeping fun _ => 0).result f (p us) =
      (Moving.mk .keeping fun _ => 0).result f (p ts) := by
    rw [← hf _ us, ← hf _ ts, Moving.map_token_start, Moving.map_token_start, hus]
  rw [h] at heq
  cases hy : p us with
  | error e =>
    rw [hy] at heq
    cases heq
  | ok r =>
    obtain ⟨y, rest⟩ := r
    rw [hy] at heq
    obtain ⟨hfy, hrest⟩ := Prod.mk.inj (Except.ok.inj heq)
    rw [hkept h, hkept hy] at hfy
    rw [hfy, List.map_eq_nil_iff.1 hrest]

/-- What is read on its own is read wherever its words stand, before tokens that do not belong to
it. -/
theorem Parser.Placeless.reads {α : Type} {p : Parser α} {fine : List Token → Prop}
    {ts us rest : List Token} {x : α} (hp : p.Placeless) (hcloses : Closes fine p)
    (h : p ts = .ok (x, [])) (hus : Spelled (ts.map Token.word) us rest) (hrest : fine rest) :
    p us = .ok (x, rest) := by
  obtain ⟨us, hus, rfl⟩ := hus
  exact (hcloses (hp.read hus h)).2 fun _ => hrest

theorem Level.placeless_part (digits depth : Nat) (c : Part) :
    ((ofDepth digits depth).part c).Placeless := by
  have hl (place : Nat → Nat) := natural_ofDepth ⟨.keeping, place⟩ digits depth
  let r := Renaming.keeping
  match c with
  | .phrase .const => exact ⟨r.const, fun place => (hl place).constant⟩
  | .phrase .pattern => exact ⟨r.pattern, fun place => (hl place).plainPattern⟩
  | .phrase .expr => exact ⟨r.ann r.expr, fun place => (hl place).expr⟩
  | .name => exact ⟨r.ann r.atom, fun place => (hl place).atom⟩
  | .varName => exact ⟨r.var, fun place => (hl place).variableName⟩
  | .varList => exact ⟨List.map r.var, fun place => (hl place).varList⟩
  | .constSegment => exact ⟨List.map r.const, fun place => (hl place).constSegment⟩
  | .constPair => exact ⟨Prod.map r.const r.const, fun place => (hl place).constPair⟩
  | .patternSegment => exact ⟨r.patternSegment, fun place => (hl place).patternSegment⟩
  | .patternPair => exact ⟨r.patternPair, fun place => (hl place).patternPair⟩
  | .segment => exact ⟨r.segment, fun place => (hl place).exprSegment⟩
  | .mapPair => exact ⟨r.mapPair, fun place => (hl place).mapPair⟩
  | .clause => exact ⟨r.ann r.clause, fun place => (hl place).clause⟩
  | .definition => exact ⟨r.ann r.definition, fun place => (hl place).definition⟩
  | .exportedName => exact ⟨r.funName, fun place => (hl place).funName.bind fun _ => .pure rfl⟩
  | .attribute => exact ⟨Prod.map r.atom r.const, fun place => (hl place).attributePair⟩
  | .unit => exact ⟨r.ann r.unit, fun place => (hl place).unit⟩

/-! ## Words that a parser finds -/

theorem Spelled.length_eq {ws : List Word} {ts rest : List Token} (h : Spelled ws ts rest) :
    ts.length = ws.length + rest.length := by
  obtain ⟨us, rfl, rfl⟩ := h
  simp

theorem Word.commas_cons (ws : List Word) (rows : List (List Word)) :
    Word.commas (ws :: rows) = ws ++ rows.flatMap (mark "," :: ·) := by
  induction rows generalizing ws with
  | nil => simp [Word.commas]
  | cons vs rows ih => simp [Word.commas, ih]

/-- Wherever tokens with these words stand, the parser finds the form that they write, unless the
token after them makes it longer. -/
structure Finds (f : Form) (p : Parser f.Tree) (ws : List Word) (x : f.Tree) : Prop where
  begins : ∀ ⦃ts rest⦄, Spelled ws ts rest → f.Begins ts
  reads : ∀ ⦃ts rest⦄, Spelled ws ts rest → f.Ends rest → p ts = .ok (x, rest)

theorem Form.Begins.append {f : Form} {ts : List Token} (h : f.Begins ts) (rest : List Token) :
    f.Begins (ts ++ rest) := by
  cases ts with
  | nil => exact h.elim
  | cons t ts => exact h

namespace Finds

variable {f : Form} {p : Parser f.Tree} {ws : List Word} {x : f.Tree} {rows : List (List Word)}
  {xs : List f.Tree} {ts rest : List Token}

theorem words_ne_nil (h : Finds f p ws x) : ws ≠ [] := by
  rintro rfl
  exact h.begins (spelled_nil.2 (Eq.refl []))

theorem of_alone (hsound : f.Sound p) (hcloses : Closes f.Ends p) (hplaceless : p.Placeless)
    (h : p ts = .ok (x, [])) : Finds f p (ts.map Token.word) x := by
  constructor
  · rintro _ rest ⟨us, hus, rfl⟩
    exact (hsound (hplaceless.read hus h)).begins.append rest
  · intro us rest hus hends
    exact hplaceless.reads hcloses h hus hends

/-! ### Rows -/

theorem ends_of_commas (hcomma : "," ∉ f.notNext)
    (hts : Spelled (rows.flatMap (mark "," :: ·)) ts rest) (hends : (Form.items f).Ends rest) :
    f.Ends ts := by
  cases rows with
  | nil =>
    rw [spelled_nil.1 hts]
    exact hends.mono (by simp [Form.notNext])
  | cons ws rows =>
    simp only [List.flatMap_cons, List.cons_append, spelled_cons] at hts
    obtain ⟨c, us, hc, rfl, -⟩ := hts
    exact .symbol (Token.is_of_mark hc) hcomma

/-- By induction on the items: each turn of the loop takes the comma and the item after it. -/
theorem commaItems (h : List.Forall₂ (Finds f p) rows xs) (hcomma : "," ∉ f.notNext)
    (hts : Spelled (rows.flatMap (mark "," :: ·)) ts rest) (hends : (Form.items f).Ends rest)
    {k : Nat} (hk : ts.length ≤ k) : Parser.commaItems p k ts = .ok (xs, rest) := by
  induction h generalizing ts k with
  | nil =>
    rw [spelled_nil.1 hts]
    cases k with
    | zero => rfl
    | succ k =>
      rw [Parser.commaItems, onSymbol_single, hends "," (by simp [Form.notNext])]
      rfl
  | @cons ws x rows xs hx hxs ih =>
    simp only [List.flatMap_cons, List.cons_append, spelled_cons, spelled_append] at hts
    obtain ⟨c, us, hc, rfl, mid, hws, hrows⟩ := hts
    cases k with
    | zero => simp at hk
    | succ k =>
      have hroom : mid.length ≤ k := by
        have hlength := hws.length_eq
        simp only [List.length_cons] at hk
        omega
      rw [Parser.commaItems, onSymbol_single_eq_ok]
      refine .inl ⟨c, us, Token.is_of_mark hc, rfl, ?_⟩
      simp only [bind_eq_ok]
      exact ⟨x, mid, hx.reads hws (ends_of_commas hcomma hrows hends), xs, rest, ih hrows hroom, rfl⟩

theorem items (h : List.Forall₂ (Finds f p) rows xs) (hcomma : "," ∉ f.notNext) (hne : rows ≠ []) :
    Finds (.items f) (Parser.items p) (Word.commas rows) xs := by
  cases h with
  | nil => exact absurd rfl hne
  | @cons ws x rows xs hx hxs =>
    rw [Word.commas_cons]
    constructor
    · intro ts rest hts
      obtain ⟨mid, hws, -⟩ := spelled_append.1 hts
      exact hx.begins hws
    · intro ts rest hts hends
      obtain ⟨mid, hws, hrows⟩ := spelled_append.1 hts
      simp only [Parser.items, bind_eq_ok, remaining_eq_ok]
      exact ⟨x, mid, hx.reads hws (ends_of_commas hcomma hrows hends), _, mid, ⟨rfl, rfl⟩, xs, rest,
        commaItems hxs hcomma hrows hends (Nat.le_refl _), rfl⟩

/-- A row with items, and the mark that closes it. -/
theorem closed {close : String} {c : Token} {f : Form} {p : Parser f.Tree} {xs : List f.Tree}
    (h : Finds (.items f) (Parser.items p) ws xs) (hclose : f.ClosedBy close)
    (hts : Spelled ws ts (c :: rest)) (hc : c.is close) :
    Parser.sequence p close ts = .ok (xs, rest) := by
  have hitems := h.reads hts (.symbol hc hclose.2.1)
  have hstart := (h.begins hts).startsWith_eq_false hclose.2.2
  rw [Parser.sequence, onSymbol_single_eq_ok]
  simp only [bind_eq_ok, expect_eq_ok]
  exact .inr ⟨hstart, xs, c :: rest, hitems, (), rest, ⟨c, hc, rfl⟩, rfl⟩

theorem sequence (h : List.Forall₂ (Finds f p) rows xs) (close : String)
    (hclose : f.ClosedBy close) :
    Finds (.sequence f close) (Parser.sequence p close) (Word.closedBy close rows) xs := by
  cases h with
  | nil =>
    constructor
    · intro ts rest hts
      simp only [Word.closedBy, Word.commas, List.nil_append, spelled_cons] at hts
      obtain ⟨c, us, hc, rfl, -⟩ := hts
      exact .symbol (Token.is_of_mark hc) (by simp [Form.openers])
    · intro ts rest hts _
      simp only [Word.closedBy, Word.commas, List.nil_append, spelled_cons, spelled_nil] at hts
      obtain ⟨c, _, hc, rfl, rfl⟩ := hts
      exact onSymbol_single_eq_ok.2 (.inl ⟨c, _, Token.is_of_mark hc, rfl, rfl⟩)
  | @cons ws x rows xs hx hxs =>
    have hitems := items (.cons hx hxs) hclose.1 (List.cons_ne_nil ws rows)
    constructor
    · intro ts rest hts
      obtain ⟨mid, hrows, -⟩ := spelled_append.1 hts
      exact (hitems.begins hrows).mono (by simp [Form.openers])
    · intro ts rest hts _
      simp only [Word.closedBy, spelled_append, spelled_cons, spelled_nil] at hts
      obtain ⟨_, hrows, c, _, hc, rfl, rfl⟩ := hts
      exact hitems.closed hclose hrows (Token.is_of_mark hc)

theorem begins_run {stop : String} (h : List.Forall₂ (Finds f p) rows xs)
    (hts : Spelled (rows.flatten ++ [keyword stop]) ts rest) : (Form.run f stop).Begins ts := by
  cases h with
  | nil =>
    simp only [List.flatten_nil, List.nil_append, spelled_cons] at hts
    obtain ⟨c, us, hc, rfl, -⟩ := hts
    exact .symbol (Token.is_of_keyword hc) (by simp [Form.openers])
  | cons hx hxs =>
    simp only [List.flatten_cons, List.append_assoc, spelled_append] at hts
    obtain ⟨mid, hws, -⟩ := hts
    exact (hx.begins hws).mono (by simp [Form.openers])

theorem itemsBefore {stop : String} (h : List.Forall₂ (Finds f p) rows xs) (hstop : f.StoppedBy stop)
    (hts : Spelled (rows.flatten ++ [keyword stop]) ts rest) {k : Nat} (hk : ts.length ≤ k) :
    ∃ c, c.is stop ∧ Parser.itemsBefore p stop k ts = .ok (xs, c :: rest) := by
  induction h generalizing ts k with
  | nil =>
    simp only [List.flatten_nil, List.nil_append, spelled_cons, spelled_nil] at hts
    obtain ⟨c, _, hc, rfl, rfl⟩ := hts
    have hc := Token.is_of_keyword hc
    refine ⟨c, hc, ?_⟩
    cases k <;> simp [Parser.itemsBefore, startsWith, hc]
  | @cons ws x rows xs hx hxs ih =>
    simp only [List.flatten_cons, List.append_assoc] at hts
    obtain ⟨mid, hws, hrows⟩ := spelled_append.1 hts
    have hstart := (hx.begins hws).startsWith_eq_false hstop.1
    have hx' := hx.reads hws (.begins (begins_run hxs hrows) hstop.2)
    cases k with
    | zero =>
      exact absurd (List.length_eq_zero_iff.1 (Nat.le_zero.1 hk)) (hx.begins hws).ne_nil
    | succ k =>
      have hroom : mid.length ≤ k := by
        have hpos := List.length_pos_iff.2 hx.words_ne_nil
        have hlength := hws.length_eq
        omega
      obtain ⟨c, hc, hrun⟩ := ih hrows hroom
      refine ⟨c, hc, ?_⟩
      simp only [Parser.itemsBefore, bind_eq_ok, ahead_eq_ok, hstart]
      refine ⟨false, ts, ⟨rfl, rfl⟩, ?_⟩
      simp only [Bool.false_eq_true, if_false, bind_eq_ok]
      exact ⟨x, mid, hx', xs, _, hrun, rfl⟩

/-- Items one after the other, and the keyword that ends them. -/
theorem run {stop : String} (h : List.Forall₂ (Finds f p) rows xs) (hstop : f.StoppedBy stop) :
    Finds (.run f stop)
      (do
        let xs ← Parser.itemsBefore p stop (← remaining)
        expect stop
        return xs)
      (rows.flatten ++ [keyword stop]) xs := by
  refine ⟨fun ts rest hts => begins_run h hts, fun ts rest hts _ => ?_⟩
  obtain ⟨c, hc, hrun⟩ := itemsBefore h hstop hts (Nat.le_refl _)
  simp only [bind_eq_ok, remaining_eq_ok, expect_eq_ok]
  exact ⟨_, ts, ⟨rfl, rfl⟩, xs, c :: rest, hrun, (), rest, ⟨c, hc, rfl⟩, rfl⟩

end Finds

/-! ## Texts -/

/-- The words of a text, if it can be cut into tokens. -/
def wordsOfText (text : String) : Option (List Word) :=
  match TokenStream.ofText text.toList with
  | .ok stream => some (stream.tokens.map Token.word)
  | .error _ => none

theorem wordsOfText_eq_some {text : String} {ws : List Word} (h : wordsOfText text = some ws) :
    ∃ stream, (∀ file, tokensOfText file text = .ok stream) ∧
      stream.tokens.map Token.word = ws := by
  rw [wordsOfText] at h
  split at h
  case h_1 stream hstream =>
    refine ⟨stream, fun file => ?_, Option.some.inj h⟩
    rw [tokensOfText, hstream]
    rfl
  case h_2 => cases h

/-- A text with these words is read if all tokens with these words are. -/
theorem readText_of_words {α : Type} {p : Parser α} {ws : List Word} {x : α} {text : String}
    (hws : wordsOfText text = some ws) (hp : ∀ ts, Spelled ws ts [] → p ts = .ok (x, []))
    (file : Option String) : readText p.whole file text = .ok x := by
  obtain ⟨stream, hstream, rfl⟩ := wordsOfText_eq_some hws
  refine readText_eq_ok.2 ⟨stream, hstream file, whole_eq_ok.2 ?_⟩
  exact hp stream.tokens ⟨stream.tokens, rfl, (List.append_nil _).symm⟩

/-- A text that is read as a part at the limit `d`, its words, and what is read. -/
structure Reading (d : Nat) (c : Part) where
  text : String
  words : List Word
  tree : c.Tree
  cut : wordsOfText text = some words
  read : readText ((Level.ofDepth numeralLimit d).part c).whole none text = .ok tree

/-- It is enough that the words are read in some places. -/
def Reading.ofWords {d : Nat} {c : Part} {text : String} {ws : List Word}
    (hws : wordsOfText text = some ws) (x : c.Tree)
    (hx : (Level.ofDepth numeralLimit d).part c (Word.place 0 ws) = .ok (x, [])) : Reading d c where
  text := text
  words := ws
  tree := x
  cut := hws
  read := by
    refine readText_of_words hws (fun ts hts => ?_) none
    obtain ⟨us, rfl, rfl⟩ := hts
    rw [List.append_nil]
    exact (Level.placeless_part numeralLimit d c).read (Word.map_word_place 0 _).symm hx

theorem Reading.finds {d : Nat} {c : Part} (r : Reading d c) :
    Finds c.form ((Level.ofDepth numeralLimit d).part c) r.words r.tree := by
  obtain ⟨stream, hstream, hwords⟩ := wordsOfText_eq_some r.cut
  obtain ⟨_, hstream', hwhole⟩ := readText_eq_ok.1 r.read
  obtain rfl := Except.ok.inj (hstream'.symm.trans (hstream none))
  have hl := Level.ofDepth_steady numeralLimit d
  rw [← hwords]
  exact .of_alone (Level.part_sound hl.sound c)
    (Level.closes_part hl (Level.ofDepth_stops numeralLimit d) c)
    (Level.placeless_part numeralLimit d c) (whole_eq_ok.1 hwhole)

theorem Reading.forall₂_finds {d : Nat} {c : Part} (rs : List (Reading d c)) :
    List.Forall₂ (Finds c.form ((Level.ofDepth numeralLimit d).part c)) (rs.map Reading.words)
      (rs.map Reading.tree) :=
  List.forall₂_map_left_iff.2 (List.forall₂_map_right_iff.2 (List.forall₂_same.2 fun r _ => r.finds))

end CallGraph
