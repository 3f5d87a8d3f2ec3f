import CallGraph.Core.Diagnostic
import CallGraph.Proofs.Parsing.Agreement

/-!
How much nesting is followed. A text is read at some limit as it is read at every greater one, or it
nests too deeply for the limit. It never does for a limit above the number of its tokens. Also, the
bounds of the loops are never felt.
-/

namespace CallGraph

open CallGraph.Parser

/-! ## Answers under a limit -/

section

variable {ρ σ : Type} {short a : ρ} {bound : Nat} {p : Nat → ρ}

/-- With a greater limit `p` comes to the answer `a` and stays with it. It says `short` before that,
but not from the limit `bound` on. -/
structure Settles (short : ρ) (bound : Nat) (p : Nat → ρ) (a : ρ) : Prop where
  answer : a ≠ short
  before : ∀ d, p d = short ∨ ∀ k, p (d + k) = a
  after : ∀ k, p (bound + k) = a

theorem Settles.map (h : Settles short bound p a) (f : ρ → σ) (hf : f a ≠ f short) :
    Settles (f short) bound (fun d => f (p d)) (f a) where
  answer := hf
  before d := (h.before d).imp (congrArg f) fun hd k => congrArg f (hd k)
  after k := congrArg f (h.after k)

end

namespace Parser

variable {α β : Type} {deep : Prop} {n : Nat} {f : α → β} {p q : Parser α} {ts : List Token}

namespace Meets

variable {r r' r'' : Except ParseFailure (α × List Token)}

theorem eq (h : Meets deep n f r r') (hf : Function.Injective f) :
    r = .error .tooDeep ∨ r = r' := by
  cases h with
  | ok hxy => exact .inr (by rw [hf hxy])
  | error => exact .inr rfl
  | deep => exact .inl rfl

theorem ne_tooDeep (h : Meets False n f r r') : r ≠ .error .tooDeep := by
  cases h with
  | ok => exact fun h => by cases h
  | error he => exact fun h => he (Except.error.inj h)
  | deep hdeep => exact hdeep.elim

theorem map_eq (h : Meets False n f r r') : r.map (Prod.map f id) = r'.map (Prod.map f id) := by
  cases h with
  | ok hxy => exact congrArg Except.ok (Prod.ext hxy rfl)
  | error => rfl
  | deep hdeep => exact hdeep.elim

theorem symm (h : Meets False n f r r') : Meets False n f r' r := by
  cases h with
  | ok hxy hrest => exact .ok hxy.symm hrest
  | error he => exact .error he
  | deep hdeep => exact hdeep.elim

theorem trans (h : Meets False n f r r') (h' : Meets False n f r' r'') : Meets False n f r r'' := by
  cases h with
  | ok hxy hrest =>
    cases h' with
    | ok hyz => exact .ok (hxy.trans hyz) hrest
  | error he =>
    cases h' with
    | error => exact .error he
    | deep hdeep => exact hdeep.elim
  | deep hdeep => exact hdeep.elim

end Meets

namespace Agrees

theorem symm (h : Agrees False n f p q) : Agrees False n f q p := fun ts hts => (h ts hts).symm

theorem trans {o : Parser α} (h : Agrees False n f p q) (h' : Agrees False n f q o) :
    Agrees False n f p o :=
  fun ts hts => (h ts hts).trans (h' ts hts)

theorem eq_at (h : Agrees False n f p q) (hf : Function.Injective f) (hts : ts.length < n) :
    p ts = q ts :=
  ((h ts hts).eq hf).resolve_left (h ts hts).ne_tooDeep

/-- Parsers that agree at every two limits which are not less than the number of tokens, and
otherwise if the first limit is not too small. -/
theorem settles {p : Nat → Parser α} (hf : Function.Injective f)
    (hadd : ∀ n d k, Agrees True n f (p d) (p (d + k)))
    (hle : ∀ n d k, n ≤ d → n ≤ k → Agrees False n f (p d) (p k)) (ts : List Token) :
    Settles (.error .tooDeep) (ts.length + 1) (fun d => p d ts) (p (ts.length + 1) ts) where
  answer := (hle _ _ _ (Nat.le_refl _) (Nat.le_refl _) ts (Nat.lt_succ_self _)).ne_tooDeep
  after k := (hle _ _ _ (Nat.le_add_right _ k) (Nat.le_refl _)).eq_at hf (Nat.lt_succ_self _)
  before d := by
    have hfrom (k : Nat) := (hadd (ts.length + 1) d k ts (Nat.lt_succ_self _)).eq hf
    rcases hfrom (ts.length + 1) with hdeep | hd
    · exact .inl hdeep
    · have hreach : p d ts = p (ts.length + 1) ts := by
        rw [hd]
        exact (hle _ _ _ (Nat.le_add_left _ d) (Nat.le_refl _)).eq_at hf (Nat.lt_succ_self _)
      by_cases hdeep : p d ts = .error .tooDeep
      · exact .inl hdeep
      · exact .inr fun k => ((hfrom k).resolve_left hdeep).symm.trans hreach

end Agrees

theorem settles_whole {p : Nat → Parser α} {bound : Nat} {a : Except ParseFailure (α × List Token)}
    (h : Settles (.error .tooDeep) bound (fun d => p d ts) a) :
    Settles (.error .tooDeep) bound (fun d => (p d).whole ts) (whole (fun _ => a) ts) := by
  refine h.map (fun r => whole (fun _ => r) ts) ?_
  rw [whole, whole]
  rcases a with e | ⟨x, _ | ⟨t, rest⟩⟩
  · exact fun he => h.answer (congrArg Except.error (Except.error.inj he))
  · exact fun he => by cases he
  · exact fun he => by cases he

end Parser

/-! ## Levels -/

namespace Level

variable {n d d' : Nat} {g : Transform} {l l' : Level}

theorem Agrees.zero {deep : Prop} (h : l.digits = l'.digits) : l.Agrees deep 0 g l' where
  digits := h
  const := .zero _ _ _
  atom := .zero _ _ _
  var := .zero _ _ _
  funName := .zero _ _ _
  pattern := .zero _ _ _
  expr := .zero _ _ _
  unit := .zero _ _ _

theorem Agrees.mono {deep : Prop} {m : Nat} (h : l.Agrees deep n g l') (hmn : m ≤ n) :
    l.Agrees deep m g l' where
  digits := h.digits
  const := h.const.mono hmn
  atom := h.atom.mono hmn
  var := h.var.mono hmn
  funName := h.funName.mono hmn
  pattern := h.pattern.mono hmn
  expr := h.expr.mono hmn
  unit := h.unit.mono hmn

/-- A way to make a level from the one below it, such that the parsers agree on one token more. -/
structure Raises (step : Level → Level) : Prop where
  digits : ∀ l, (step l).digits = l.digits
  agrees : ∀ ⦃deep n l l'⦄, l.Agrees deep n .unchanged l' →
    (step l).Agrees deep (n + 1) .unchanged (step l')

theorem raises_next : Raises next := ⟨fun _ => rfl, fun _ _ _ _ hl => hl.next⟩

/-- The level that follows a nesting of `depth`, if each level is made in the given way. -/
def grow (step : Level → Level) (digits : Nat) : Nat → Level
  | 0 => ofDepth digits 0
  | depth + 1 => step (grow step digits depth)

theorem grow_next (digits depth : Nat) : grow next digits depth = ofDepth digits depth := by
  induction depth with
  | zero => rfl
  | succ depth ih => rw [grow, ih, ofDepth]

section

variable {step : Level → Level} (hstep : Raises step) (digits : Nat)

include hstep

theorem digits_grow (depth : Nat) : (grow step digits depth).digits = digits := by
  induction depth with
  | zero => rfl
  | succ depth ih => rw [grow, hstep.digits, ih]

/-- More nesting that is followed changes nothing but that the text nests too deeply. -/
theorem agrees_grow_add (n d k : Nat) :
    (grow step digits d).Agrees True n .unchanged (grow step digits (d + k)) := by
  induction d with
  | zero =>
    have hdigits := digits_grow hstep digits (0 + k)
    exact ⟨hdigits.symm, .tooDeep trivial _, .tooDeep trivial _, .tooDeep trivial _,
      .tooDeep trivial _, .tooDeep trivial _, .tooDeep trivial _, .tooDeep trivial _⟩
  | succ d ih =>
    rw [Nat.succ_add]
    exact (hstep.agrees ih).mono (Nat.le_succ n)

/-- On fewer tokens than there are levels the text does not nest too deeply. -/
theorem agrees_grow (n d k : Nat) (hd : n ≤ d) (hk : n ≤ k) :
    (grow step digits d).Agrees False n .unchanged (grow step digits k) := by
  induction n generalizing d k with
  | zero => exact .zero (by rw [digits_grow hstep, digits_grow hstep])
  | succ n ih =>
    cases d with
    | zero => exact absurd hd (Nat.not_succ_le_zero n)
    | succ d =>
      cases k with
      | zero => exact absurd hk (Nat.not_succ_le_zero n)
      | succ k =>
        exact hstep.agrees (ih d k (Nat.le_of_succ_le_succ hd) (Nat.le_of_succ_le_succ hk))

end

/-- The level that follows any nesting, if each level is made in the given way. -/
def limitless (step : Level → Level) (digits : Nat) : Level where
  digits := digits
  const ts := (grow step digits (ts.length + 1)).const ts
  atom ts := (grow step digits (ts.length + 1)).atom ts
  var ts := (grow step digits (ts.length + 1)).var ts
  funName ts := (grow step digits (ts.length + 1)).funName ts
  pattern ts := (grow step digits (ts.length + 1)).pattern ts
  expr ts := (grow step digits (ts.length + 1)).expr ts
  unit ts := (grow step digits (ts.length + 1)).unit ts

/-- What the parsers of a tree with lists come to with greater limits. -/
structure SettlesTo (p : Nat → Level) (l : Level) : Prop where
  const : ∀ ts, Settles (.error .tooDeep) (ts.length + 1) (fun d => (p d).const ts) (l.const ts)
  pattern : ∀ ts,
    Settles (.error .tooDeep) (ts.length + 1) (fun d => (p d).pattern ts) (l.pattern ts)
  expr : ∀ ts, Settles (.error .tooDeep) (ts.length + 1) (fun d => (p d).expr ts) (l.expr ts)
  unit : ∀ ts, Settles (.error .tooDeep) (ts.length + 1) (fun d => (p d).unit ts) (l.unit ts)

theorem grow_settlesTo {step : Level → Level} (hstep : Raises step) (digits : Nat) :
    SettlesTo (grow step digits) (limitless step digits) :=
  have hadd := agrees_grow_add hstep digits
  have hle := agrees_grow hstep digits
  { const := Agrees.settles (Transform.ann_injective Transform.unchanged_const)
      (fun n d k => (hadd n d k).const) fun n d k hd hk => (hle n d k hd hk).const
    pattern := Agrees.settles (Transform.ann_injective Transform.unchanged_pattern)
      (fun n d k => (hadd n d k).pattern) fun n d k hd hk => (hle n d k hd hk).pattern
    expr := Agrees.settles (Transform.ann_injective Transform.unchanged_expr)
      (fun n d k => (hadd n d k).expr) fun n d k hd hk => (hle n d k hd hk).expr
    unit := Agrees.settles (Transform.ann_injective Transform.unchanged_unit)
      (fun n d k => (hadd n d k).unit) fun n d k hd hk => (hle n d k hd hk).unit }

theorem ofDepth_settlesTo (digits : Nat) :
    SettlesTo (ofDepth digits) (limitless next digits) := by
  have h := grow_settlesTo raises_next digits
  rwa [funext (grow_next digits)] at h

end Level

/-! ## Loops -/

namespace Parser

variable {α β : Type} {ts : List Token}

/-- A bound of the loop that is not less than the number of tokens is not felt. -/
def Unfelt (loop : Nat → Parser α) : Prop := ∀ ts k, loop (ts.length + k) ts = loop ts.length ts

/-- It is enough that each turn takes a token before the loop goes on with what it has collected. -/
theorem unfelt_of_collecting {ι : Type} {loop : Nat → ι → Parser α}
    (hnil : ∀ k c, loop k c [] = loop 0 c [])
    (hturn : ∀ j k c ts, (∀ c us, us.length < ts.length → loop j c us = loop k c us) →
      loop (j + 1) c ts = loop (k + 1) c ts) (c : ι) : Unfelt fun n => loop n c := by
  -- By induction on one bound. The other one goes down with it, as both are above the tokens.
  have hall (j : Nat) : ∀ k c ts, ts.length ≤ j → ts.length ≤ k → loop j c ts = loop k c ts := by
    induction j with
    | zero =>
      intro k c ts hj _
      obtain rfl := List.length_eq_zero_iff.1 (Nat.le_zero.1 hj)
      exact (hnil k c).symm
    | succ j ih =>
      intro k c ts hj hk
      cases k with
      | zero =>
        obtain rfl := List.length_eq_zero_iff.1 (Nat.le_zero.1 hk)
        exact hnil (j + 1) c
      | succ k => exact hturn j k c ts fun c us hus => ih k c us (by omega) (by omega)
  exact fun ts k => hall _ _ c ts (Nat.le_add_right _ _) (Nat.le_refl _)

theorem unfelt_of_turns {loop : Nat → Parser α} (hnil : ∀ k, loop k [] = loop 0 [])
    (hturn : ∀ j k ts, (∀ us, us.length < ts.length → loop j us = loop k us) →
      loop (j + 1) ts = loop (k + 1) ts) : Unfelt loop :=
  unfelt_of_collecting (fun k _ => hnil k) (fun j k _ ts h => hturn j k ts (h ())) ()

theorem bind_congr_at {p : Parser α} {f g : α → Parser β}
    (h : ∀ x rest, p ts = .ok (x, rest) → f x rest = g x rest) : (p >>= f) ts = (p >>= g) ts := by
  change Except.bind (p ts) (fun y => f y.1 y.2) = Except.bind (p ts) fun y => g y.1 y.2
  cases hp : p ts with
  | error e => rfl
  | ok y => exact h y.1 y.2 hp

theorem bind_congr_left {p q : Parser α} {f : α → Parser β} (h : p ts = q ts) :
    (p >>= f) ts = (q >>= f) ts := by
  change Except.bind (p ts) (fun y => f y.1 y.2) = Except.bind (q ts) fun y => f y.1 y.2
  rw [h]

theorem unfelt_itemsBefore {item : Parser α} (stop : String)
    (hitem : ∀ ts x rest, item ts = .ok (x, rest) → rest.length < ts.length) :
    Unfelt (itemsBefore item stop) := by
  refine unfelt_of_turns (fun k => ?_) fun j k ts h => ?_
  · cases k with
    | zero => rfl
    | succ k =>
      rw [itemsBefore, itemsBefore]
      refine bind_congr_at fun b rest hb => ?_
      obtain ⟨rfl, rfl⟩ := ahead_eq_ok.1 hb
      -- Without tokens there is no item, so that it does not matter what would come after it.
      refine bind_congr_at (p := item) fun x rest hx => ?_
      exact absurd (hitem [] x rest hx) (Nat.not_lt_zero _)
  · rw [itemsBefore, itemsBefore]
    refine bind_congr_at fun b rest hb => ?_
    obtain ⟨rfl, rfl⟩ := ahead_eq_ok.1 hb
    split
    · rfl
    · exact bind_congr_at fun x mid hx => bind_congr_left (h mid (hitem _ x mid hx))

theorem unfelt_commaItems {digits : Nat} {item : Parser α} (hitem : Steady digits item) :
    Unfelt (commaItems item) := by
  refine unfelt_of_turns (fun k => by cases k <;> rfl) fun j k ts h => ?_
  rw [commaItems, commaItems, onSymbol_single, onSymbol_single]
  cases ts with
  | nil => rfl
  | cons t ts =>
    split
    · exact bind_congr_at fun x rest hx =>
        bind_congr_left (h rest (Nat.lt_succ_of_le (hitem.suffix hx).length_le))
    · rfl

theorem unfelt_cellLoop {digits : Nat} {item : Parser α} (hitem : Steady digits item)
    (collected : List α) (opened : Nat) : Unfelt fun n => cellLoop item n collected opened := by
  refine @unfelt_of_collecting _ _ (fun n c => cellLoop item n c.1 c.2) (fun k c => ?_)
    (fun j k c ts h => ?_) (collected, opened)
  · cases k with
    | zero => rfl
    | succ k =>
      rw [cellLoop, cellLoop]
      refine bind_congr_at fun xs rest hxs => ?_
      obtain rfl := List.suffix_nil.1 (hitem.items.suffix hxs)
      rfl
  · rw [cellLoop, cellLoop]
    refine bind_congr_at fun xs rest hxs => bind_congr_at fun b mid hb => ?_
    rcases accept_eq_ok.1 hb with ⟨rfl, t, -, rfl⟩ | ⟨rfl, -, -⟩
    · rw [if_pos rfl, if_pos rfl]
      refine bind_congr_at fun us mid' hus => ?_
      obtain ⟨rfl, rfl⟩ := get_eq_ok.1 hus
      split
      · refine bind_congr_at fun _ last hlast => h (_, _) last ?_
        obtain ⟨o, -, rfl⟩ := expect_eq_ok.1 hlast
        have hle := (hitem.items.suffix hxs).length_le
        simp only [List.length_cons] at hle
        omega
      · rfl
    · rfl

theorem unfelt_cells {digits : Nat} {item : Parser α} (hitem : Steady digits item) :
    Unfelt (cells item) := by
  intro ts k
  rw [cells_eq, cells_eq]
  exact bind_congr_left (unfelt_cellLoop hitem [] 1 ts k)

end Parser

namespace Level

variable {l : Level}

theorem heads_of_let {k : Token} {ts : List Token} (n : Nat) (collected : List ChainHead)
    (hk : k.IsKeyword "let") :
    l.heads (n + 1) collected (k :: ts) =
      (l.binding >>= fun head => l.heads n (head :: collected)) ts :=
  onKeyword_eq_of_mem (by simp) (by simp) hk

theorem heads_of_do {k : Token} {ts : List Token} (n : Nat) (collected : List ChainHead)
    (hk : k.IsKeyword "do") :
    l.heads (n + 1) collected (k :: ts) =
      (l.expr >>= fun first => l.heads n (.step first :: collected)) ts :=
  onKeyword_eq_of_mem (by simp) (by simp) hk

theorem unfelt_heads (hl : l.Steady) (collected : List ChainHead) :
    Unfelt fun n => l.heads n collected := by
  have hbinding : Parser.Steady l.digits l.binding :=
    (steady_varList hl).bind fun _ => (Steady.expect (by decide)).bind fun _ =>
      hl.expr.bind fun _ => (Steady.expect (by decide)).bind fun _ => .pure _
  refine unfelt_of_collecting (fun k c => by cases k <;> rfl) (fun j k c ts h => ?_) collected
  cases ts with
  | nil => rfl
  | cons t ts =>
    have hrest {us : List Token} (c : List ChainHead) (hus : us <:+ ts) :
        l.heads j c us = l.heads k c us := h c us (Nat.lt_succ_of_le hus.length_le)
    by_cases hlet : t.IsKeyword "let"
    · rw [heads_of_let j c hlet, heads_of_let k c hlet]
      exact bind_congr_at fun head rest hhead => hrest _ (hbinding.suffix hhead)
    · by_cases hdo : t.IsKeyword "do"
      · rw [heads_of_do j c hdo, heads_of_do k c hdo]
        exact bind_congr_at fun first rest hfirst => hrest _ (hl.expr.suffix hfirst)
      · rw [heads, heads, onKeyword_eq_otherwise (by simp [hlet, hdo]),
          onKeyword_eq_otherwise (by simp [hlet, hdo])]

theorem unfelt_chain (hl : l.Steady) : Unfelt l.chain := by
  intro ts k
  rw [chain_eq, chain_eq]
  exact bind_congr_left (unfelt_heads hl [] ts k)

/-- The bounds of the loops of a level are not felt. -/
structure Unbounded (l : Level) : Prop where
  clauses : ∀ stop, Unfelt (itemsBefore l.clause stop)
  definitions : ∀ stop, Unfelt (itemsBefore l.definition stop)
  heads : ∀ collected, Unfelt fun n => l.heads n collected
  constCells : ∀ collected opened, Unfelt fun n => cellLoop l.constant n collected opened
  patternCells : ∀ collected opened, Unfelt fun n => cellLoop l.plainPattern n collected opened
  exprCells : ∀ collected opened, Unfelt fun n => cellLoop l.expr n collected opened
  items : ∀ ⦃α⦄ (item : Parser α), Parser.Steady l.digits item → Unfelt (commaItems item)

theorem unbounded_ofDepth (digits depth : Nat) : (ofDepth digits depth).Unbounded :=
  have hl := ofDepth_steady digits depth
  { clauses := fun stop =>
      unfelt_itemsBefore stop fun _ _ _ h => (clause_sound hl.sound h).length_lt
    definitions := fun stop =>
      unfelt_itemsBefore stop fun _ _ _ h => (definition_sound hl.sound h).length_lt
    heads := unfelt_heads hl
    constCells := unfelt_cellLoop (steady_constant hl)
    patternCells := unfelt_cellLoop (steady_plainPattern hl)
    exprCells := unfelt_cellLoop hl.expr
    items := fun _ _ hitem => unfelt_commaItems hitem }

end Level

/-! ## Texts -/

/-- The number of tokens of a text, zero if it cannot be cut into tokens. -/
def tokenCount (text : String) : Nat :=
  match TokenStream.ofText text.toList with
  | .ok stream => stream.tokens.length
  | .error _ => 0

/-- The error for a text that nests too deeply. -/
def ReadError.nesting (file : Option String) : ReadError :=
  .malformed ⟨"expression nesting too deep", none, none, file⟩

theorem ReadError.ofLexError_ne_nesting (file : Option String) (text : List Char) (e : LexError) :
    ofLexError file text e ≠ nesting file := by
  cases e <;> simp [ofLexError, nesting, Diagnostic.located]

theorem ReadError.ofParseFailure_ne_nesting {file : Option String} {text : List Char}
    {e : ParseFailure} (he : e ≠ .tooDeep) : ofParseFailure file text e ≠ nesting file := by
  cases e with
  | tooDeep => exact absurd rfl he
  | unexpected | conversion => simp [ofParseFailure, nesting, Diagnostic.located]

/-- What is made of the tokens of a text settles if what is made of any tokens does. -/
theorem settles_readText {α : Type} {parse : Nat → List Token → Except ParseFailure α}
    (h : ∀ ts, ∃ a, Settles (.error .tooDeep) (ts.length + 1) (fun d => parse d ts) a)
    (file : Option String) (text : String) :
    ∃ a, Settles (.error (.nesting file)) (tokenCount text + 1)
      (fun d => readText (parse d) file text) a := by
  unfold tokenCount
  cases hstream : TokenStream.ofText text.toList with
  | error e =>
    have hread (d : Nat) :
        readText (parse d) file text = .error (.ofLexError file text.toList e) := by
      rw [readText, tokensOfText, hstream]
      rfl
    refine ⟨_, fun he => ?_, fun d => .inr fun k => hread (d + k), fun k => hread _⟩
    exact ReadError.ofLexError_ne_nesting file text.toList e (Except.error.inj he)
  | ok stream =>
    have hread : (fun d => readText (parse d) file text) = fun d =>
        (parse d stream.tokens).mapError (ReadError.ofParseFailure file text.toList) := by
      funext d
      rw [readText, tokensOfText, hstream]
      rfl
    rw [hread]
    obtain ⟨a, ha⟩ := h stream.tokens
    refine ⟨_, ha.map (Except.mapError (ReadError.ofParseFailure file text.toList)) ?_⟩
    cases a with
    | ok x => exact fun he => by cases he
    | error e =>
      have he : e ≠ .tooDeep := fun he => ha.answer (by rw [he])
      exact fun h => ReadError.ofParseFailure_ne_nesting he (Except.error.inj h)

/-- A text is read at some limit as it is read at every greater one, or it nests too deeply for the
limit, which it does not for any limit above the number of its tokens. No loop ends because of its
bound. -/
theorem nesting_limit_settles (file : Option String) (text : String) :
    (∃ a, Settles (.error (.nesting file)) (tokenCount text + 1)
      (fun d => readText (moduleOfTokens d) file text) a) ∧
    (∃ a, Settles (.error (.nesting file)) (tokenCount text + 1)
      (fun d => readText (exprOfTokens d) file text) a) ∧
    ∀ d, (Level.ofDepth numeralLimit d).Unbounded := by
  have hlevel := Level.ofDepth_settlesTo numeralLimit
  exact ⟨settles_readText (fun ts => ⟨_, settles_whole (hlevel.unit ts)⟩) file text,
    settles_readText (fun ts => ⟨_, settles_whole (hlevel.expr ts)⟩) file text,
    Level.unbounded_ofDepth numeralLimit⟩

end CallGraph
