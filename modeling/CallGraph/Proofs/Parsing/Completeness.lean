import CallGraph.Proofs.Parsing.Soundness

/-!
Parsers find everything that the grammar writes, if the level of nesting is greater than the number
of tokens: each level takes at least one token before it turns to the level below. A form is found
where it ends, unless the token after it makes it longer: a comma after items, a slash after an atom
that is an expression, an equals sign after a variable that is a pattern.
-/

namespace CallGraph

open CallGraph.Parser

/-- The symbols that make a phrase longer. -/
def Category.notNext : Category → List String
  | .const => []
  | .pattern => ["="]
  | .expr => ["/"]

/-- The symbols that make a form longer, or turn it into another one. -/
def Form.notNext : Form → List String
  | .annotated f | .stripped f => f.notNext
  | .items f => "," :: f.notNext
  | .base s | .bare s | .element s | .tail s => s.notNext
  | .patterns | .patternPair => ["="]
  | .bareClause | .clause | .definition | .mapPair => ["/"]
  | .closing | .sequence .. | .run .. | .atom | .var | .literal | .funName | .mapOp | .cells _
  | .constSegment | .constPair | .varList | .patternSegment | .segment | .mapBody | .arguments
  | .attribute | .module => []

/-- A form can end before these tokens. -/
def Form.Ends (f : Form) (rest : List Token) : Prop :=
  ∀ s ∈ f.notNext, startsWith s rest = false

namespace Form.Ends

variable {f g : Form} {c : Token} {rest : List Token}

theorem nil : f.Ends [] := fun _ _ => rfl

/-- A form that can end before any token. -/
theorem free (h : f.notNext = []) : f.Ends rest := by
  intro s hs
  rw [h] at hs
  cases hs

theorem symbol {s : String} (hc : c.is s) (hs : s ∉ f.notNext) : f.Ends (c :: rest) := by
  intro s' hs'
  exact Token.is_eq_false hc fun h => hs (h ▸ hs')

theorem begins (h : g.Begins rest) (hfg : ∀ s ∈ f.notNext, s ∉ g.openers) : f.Ends rest :=
  fun s hs => h.startsWith_eq_false (hfg s hs)

theorem mono (h : f.Ends rest) (hfg : g.notNext ⊆ f.notNext) : g.Ends rest :=
  fun s hs => h s (hfg hs)

end Form.Ends

/-- There are fewer than `n` tokens, and the integers among them are short. -/
structure Fits (digits n : Nat) (ts : List Token) : Prop where
  length_lt : ts.length < n
  short : ∀ t ∈ ts, t.Short digits

namespace Fits

variable {f : Form} {digits n : Nat} {t : Token} {ts us rest : List Token} {x : f.Tree}

theorem of_suffix (h : Fits digits n ts) (hus : us <:+ ts) : Fits digits n us :=
  ⟨Nat.lt_of_le_of_lt hus.length_le h.length_lt, fun t ht => h.short t (hus.mem ht)⟩

theorem tail (h : Fits digits n (t :: ts)) : Fits digits n ts := h.of_suffix (List.suffix_cons t ts)

/-- One token less is needed one level further down. -/
theorem down (h : Fits digits (n + 1) (t :: ts)) : Fits digits n ts :=
  ⟨Nat.lt_of_succ_lt_succ h.length_lt, h.tail.short⟩

theorem after (h : Fits digits n ts) (hx : Writes f ts x rest) : Fits digits n rest :=
  h.of_suffix hx.suffix

end Fits

/-- The parser gives what the tokens write as this form. -/
def Form.Complete (f : Form) (digits n : Nat) (p : Parser f.Tree) : Prop :=
  ∀ ⦃ts x rest⦄, Writes f ts x rest → Fits digits n ts → f.Ends rest → p ts = .ok (x, rest)

variable {f : Form} {s : Category} {l : Level} {digits n : Nat} {ts us mid mid' rest : List Token}

/-! ## Rows -/

theorem commaItems_complete {item : Parser f.Tree} (hitem : f.Complete digits n item)
    (hcomma : "," ∉ f.notNext) {xs : List f.Tree} (h : Writes (.items f) ts xs rest)
    (hfit : Fits digits n ts) (hends : (Form.items f).Ends rest) :
    ∃ x ys mid, xs = x :: ys ∧ mid <:+ ts ∧ item ts = .ok (x, mid) ∧
      ∀ k, mid.length ≤ k → commaItems item k mid = .ok (ys, rest) := by
  induction xs generalizing ts with
  | nil => cases h
  | cons x xs ih =>
    cases h with
    | one hx =>
      refine ⟨x, [], rest, rfl, hx.suffix, hitem hx hfit (hends.mono (by simp [Form.notNext])), ?_⟩
      intro k _
      cases k with
      | zero => rfl
      | succ k =>
        rw [commaItems, onSymbol_single, hends "," (by simp [Form.notNext])]
        rfl
    | @more _ c _ mid _ _ _ hx hc hxs =>
      obtain ⟨y, ys, mid', rfl, hsuffix, hy, hys⟩ := ih hxs (hfit.after hx).tail
      refine ⟨x, y :: ys, c :: mid, rfl, hx.suffix, hitem hx hfit (.symbol hc hcomma), ?_⟩
      intro k hk
      cases k with
      | zero => simp at hk
      | succ k =>
        have hlength : mid'.length ≤ k :=
          Nat.le_trans hsuffix.length_le (Nat.le_of_succ_le_succ hk)
        rw [commaItems, onSymbol_single_eq_ok]
        refine .inl ⟨c, mid, hc, rfl, ?_⟩
        simp only [bind_eq_ok]
        exact ⟨y, mid', hy, ys, rest, hys k hlength, rfl⟩

theorem items_complete {item : Parser f.Tree} (hitem : f.Complete digits n item)
    (hcomma : "," ∉ f.notNext) : (Form.items f).Complete digits n (items item) := by
  intro ts xs rest h hfit hends
  obtain ⟨x, ys, mid, rfl, -, hx, hys⟩ := commaItems_complete hitem hcomma h hfit hends
  simp only [items, bind_eq_ok, remaining_eq_ok]
  exact ⟨x, mid, hx, _, mid, ⟨rfl, rfl⟩, ys, rest, hys _ (Nat.le_refl _), rfl⟩

/-- The symbol ends a row of items, and no item begins with it. -/
def Form.ClosedBy (f : Form) (close : String) : Prop :=
  "," ∉ f.notNext ∧ close ∉ (Form.items f).notNext ∧ close ∉ f.openers

instance (f : Form) (close : String) : Decidable (f.ClosedBy close) :=
  inferInstanceAs (Decidable (_ ∧ _))

theorem sequence_complete {item : Parser f.Tree} {close : String}
    (hitem : f.Complete digits n item) (hclose : f.ClosedBy close) :
    (Form.sequence f close).Complete digits n (sequence item close) := by
  intro ts xs rest h hfit hends
  rw [Parser.sequence, onSymbol_single_eq_ok]
  cases h with
  | @empty _ _ c _ hc => exact .inl ⟨c, rest, hc, rfl, rfl⟩
  | @filled _ _ c _ _ _ hxs hc =>
    have hstart := hxs.begins.startsWith_eq_false hclose.2.2
    have hitems := items_complete hitem hclose.1 hxs hfit (.symbol hc hclose.2.1)
    simp only [bind_eq_ok, expect_eq_ok]
    exact .inr ⟨hstart, xs, c :: rest, hitems, (), rest, ⟨c, hc, rfl⟩, rfl⟩

theorem map_sequence_complete {item : Parser f.Tree} {close : String} {xs : List f.Tree} {α : Type}
    {g : List f.Tree → α} (hitem : f.Complete digits n item) (hclose : f.ClosedBy close)
    (h : Writes (.sequence f close) ts xs rest) (hfit : Fits digits n ts) :
    (g <$> sequence item close) ts = .ok (g xs, rest) :=
  map_eq_ok.2 ⟨xs, sequence_complete hitem hclose h hfit (.free rfl), rfl⟩

/-- No item begins with the symbol, and neither the symbol nor another item makes an item longer. -/
def Form.StoppedBy (f : Form) (stop : String) : Prop :=
  stop ∉ f.openers ∧ ∀ s ∈ f.notNext, s ∉ (Form.run f stop).openers

instance (f : Form) (stop : String) : Decidable (f.StoppedBy stop) :=
  inferInstanceAs (Decidable (_ ∧ _))

theorem itemsBefore_complete {item : Parser f.Tree} {stop : String} {xs : List f.Tree}
    (hitem : f.Complete digits n item) (hstop : f.StoppedBy stop)
    (h : Writes (.run f stop) ts xs rest) (hfit : Fits digits n ts) {k : Nat}
    (hk : ts.length ≤ k) :
    ∃ c, c.is stop ∧ itemsBefore item stop k ts = .ok (xs, c :: rest) := by
  induction xs generalizing ts k with
  | nil =>
    cases h with
    | @stop _ _ c _ hc =>
      refine ⟨c, hc, ?_⟩
      cases k <;> simp [itemsBefore, startsWith, hc]
  | cons x xs ih =>
    cases h with
    | @go _ _ _ mid _ _ _ hx hxs =>
      cases k with
      | zero => exact absurd (List.length_eq_zero_iff.1 (Nat.le_zero.1 hk)) hx.begins.ne_nil
      | succ k =>
        have hlength : mid.length ≤ k :=
          Nat.le_of_lt_succ (Nat.lt_of_lt_of_le hx.length_lt hk)
        obtain ⟨c, hc, hrun⟩ := ih hxs (hfit.after hx) hlength
        have hstart := hx.begins.startsWith_eq_false hstop.1
        have hitem := hitem hx hfit (.begins hxs.begins hstop.2)
        refine ⟨c, hc, ?_⟩
        simp only [itemsBefore, bind_eq_ok, ahead_eq_ok, hstart]
        refine ⟨false, ts, ⟨rfl, rfl⟩, ?_⟩
        simp only [Bool.false_eq_true, if_false, bind_eq_ok]
        exact ⟨x, mid, hitem, xs, _, hrun, rfl⟩

/-! ## Lists -/

theorem Writes.element_of_tail {x : s.Element} (h : Writes (.tail s) ts x rest) :
    Writes (.element s) ts x rest := by
  cases h with
  | baseTail h => exact .element (.plain (.base h))
  | parensTail ho ha hc => exact .element (.parens ho ha hc)

/-- A phrase that is not a list with elements does not look like one. -/
theorem Writes.opensCells_of_base {x : s.Tree} (h : Writes (.base s) ts x rest) :
    opensCells ts = false := by
  have hsymbol {k : Token} {s : String} (us : List Token) (hk : k.is s) (hs : s ≠ "[") :
      opensCells (k :: us) = false := by
    simp [opensCells, Token.is_eq_false hk hs]
  have hword {k : Token} (us : List Token) (hk : k.is "[" = false) :
      opensCells (k :: us) = false := by
    simp [opensCells, hk]
  cases h
  case nil o c ho hc => simp [opensCells, ho, startsWith, hc]
  case lit h =>
    cases h with
    | literal ht => exact hword _ (ht.is_eq_false _)
  case funRef h =>
    cases h with
    | funName ha => exact hword _ (Token.is_of_kind _ ha (by decide))
  case var hv | patternVar hv | aliased hv _ _ => exact hword _ (Token.is_of_kind _ hv (by decide))
  all_goals first
    | exact hsymbol _ ‹_› (by decide)
    | exact hsymbol _ (Token.IsKeyword.is ‹_›) (by decide)

theorem Writes.opensCells_of_tail {x : s.Element} (h : Writes (.tail s) ts x rest) :
    opensCells ts = false := by
  cases h with
  | baseTail h => exact h.opensCells_of_base
  | parensTail ho ha hc => simp [opensCells, Token.is_eq_false ho (b := "[") (by decide)]

theorem Writes.opensCells_of_cells {c : List s.Element × Option s.Element} {o : Token}
    (ho : o.is "[") (h : Writes (.cells s) ts c rest) : opensCells (o :: ts) = true := by
  have hclose := h.begins.startsWith_eq_false (s := "]") (by cases s <;> decide)
  simp [opensCells, ho, hclose]

theorem cells_complete {item : Parser s.Element} (hitem : (Form.element s).Complete digits n item)
    {c : List s.Element × Option s.Element} (h : Writes (.cells s) ts c rest)
    (hfit : Fits digits n ts) {k : Nat} (hk : ts.length ≤ k) :
    cells item k ts = .ok (c, rest) := by
  have hcomma : "," ∉ (Form.element s).notNext := by cases s <;> decide
  have hbracket : "]" ∉ (Form.element s).items.notNext := by cases s <;> decide
  have hbar : "|" ∉ (Form.element s).items.notNext := by cases s <;> decide
  have hlast : "]" ∉ (Form.element s).notNext := by cases s <;> decide
  induction k generalizing ts c rest with
  | zero => exact absurd (List.length_eq_zero_iff.1 (Nat.le_zero.1 hk)) h.begins.ne_nil
  | succ k ih =>
    simp only [cells, bind_eq_ok, accept_eq_ok]
    cases h with
    | @proper _ c _ _ xs hxs hc =>
      have hitems := items_complete hitem hcomma hxs hfit (.symbol hc hbracket)
      have hnobar : startsWith "|" (c :: rest) = false := Token.is_eq_false hc (by decide)
      refine ⟨xs, c :: rest, hitems, false, c :: rest, .inr ⟨rfl, hnobar, rfl⟩, ?_⟩
      simp only [Bool.false_eq_true, if_false, bind_eq_ok, expect_eq_ok]
      exact ⟨(), rest, ⟨c, hc, rfl⟩, rfl⟩
    | @improper _ b c _ mid _ xs x hxs hb hx hc =>
      have hitems := items_complete hitem hcomma hxs hfit (.symbol hb hbar)
      have hx' := hitem hx.element_of_tail (hfit.after hxs).tail (.symbol hc hlast)
      refine ⟨xs, b :: mid, hitems, true, mid, .inl ⟨rfl, b, hb, rfl⟩, ?_⟩
      simp only [if_true, bind_eq_ok, get_eq_ok]
      refine ⟨mid, mid, ⟨rfl, rfl⟩, ?_⟩
      simp only [hx.opensCells_of_tail, Bool.false_eq_true, if_false, bind_eq_ok, expect_eq_ok]
      exact ⟨x, c :: rest, hx', (), rest, ⟨c, hc, rfl⟩, rfl⟩
    | @merged _ b o c _ mid _ xs ys hxs hb ho hys hc =>
      have hitems := items_complete hitem hcomma hxs hfit (.symbol hb hbar)
      have hlength : mid.length ≤ k := by
        have := hxs.length_lt
        simp only [List.length_cons] at this
        omega
      have hys' := ih hys (hfit.after hxs).tail.tail hlength
      refine ⟨xs, b :: o :: mid, hitems, true, o :: mid, .inl ⟨rfl, b, hb, rfl⟩, ?_⟩
      simp only [if_true, bind_eq_ok, get_eq_ok]
      refine ⟨o :: mid, o :: mid, ⟨rfl, rfl⟩, ?_⟩
      simp only [hys.opensCells_of_cells ho, if_true, bind_eq_ok, expect_eq_ok]
      exact ⟨(), mid, ⟨o, ho, rfl⟩, ys, c :: rest, hys', (), rest, ⟨c, hc, rfl⟩, rfl⟩

theorem bracketed_complete {item : Parser s.Element}
    (hitem : (Form.element s).Complete digits n item) {c : List s.Element × Option s.Element}
    (h : Writes (.cells s) ts c rest) (hfit : Fits digits n ts) :
    Level.bracketed item (s.lit .nil) s.list ts = .ok (s.list c.1 c.2, rest) := by
  have hclose := h.begins.startsWith_eq_false (s := "]") (by cases s <;> decide)
  have hcells := cells_complete hitem h hfit (Nat.le_refl _)
  rw [Level.bracketed_eq, onSymbol_single_eq_ok]
  simp only [bind_eq_ok, remaining_eq_ok]
  exact .inr ⟨hclose, _, ts, ⟨rfl, rfl⟩, c, rest, hcells, rfl⟩

theorem bracketed_nil {item : Parser s.Element} {c : Token} (hc : c.is "]") :
    Level.bracketed item (s.lit .nil) s.list (c :: rest) = .ok (s.lit .nil, rest) := by
  rw [Level.bracketed_eq, onSymbol_single_eq_ok]
  exact .inl ⟨c, rest, hc, rfl, rfl⟩

/-! ## Parentheses -/

/-- What the parsers of a level find in fewer than `n` tokens. -/
structure Level.Complete (l : Level) (n : Nat) : Prop where
  const : (Form.annotated (.bare .const)).Complete l.digits n l.const
  atom : (Form.annotated .atom).Complete l.digits n l.atom
  var : (Form.annotated .var).Complete l.digits n l.var
  funName : (Form.annotated .funName).Complete l.digits n l.funName
  pattern : (Form.annotated (.bare .pattern)).Complete l.digits n l.pattern
  expr : (Form.annotated (.bare .expr)).Complete l.digits n l.expr
  unit : (Form.annotated .module).Complete l.digits n l.unit

namespace Level

theorem constant_complete (hl : l.Complete n) :
    (Form.element .const).Complete l.digits n l.constant := by
  intro ts x rest h hfit hends
  cases h with
  | element ha =>
    simp only [constant, bind_eq_ok]
    exact ⟨_, rest, hl.const ha hfit hends, rfl⟩

theorem plainPattern_complete (hl : l.Complete n) :
    (Form.element .pattern).Complete l.digits n l.plainPattern := by
  intro ts x rest h hfit hends
  cases h with
  | element ha =>
    simp only [plainPattern, bind_eq_ok]
    exact ⟨_, rest, hl.pattern ha hfit hends, rfl⟩

theorem expr_complete (hl : l.Complete n) : (Form.element .expr).Complete l.digits n l.expr := by
  intro ts x rest h hfit hends
  cases h with
  | element ha => exact hl.expr ha hfit hends

theorem variableName_complete (hl : l.Complete n) :
    (Form.stripped .var).Complete l.digits n l.variableName := by
  intro ts x rest h hfit hends
  cases h with
  | stripped ha =>
    simp only [variableName, bind_eq_ok]
    exact ⟨_, rest, hl.var ha hfit hends, rfl⟩

theorem closing_complete (hl : l.Complete n) : Form.closing.Complete l.digits n l.closing := by
  intro ts cs rest h hfit hends
  simp only [closing, annotations, bind_eq_ok, onSymbol_single_eq_ok, expect_eq_ok]
  cases h with
  | @closed c _ hc =>
    have hbar : startsWith "-|" (c :: rest) = false := Token.is_eq_false hc (by decide)
    exact ⟨[], c :: rest, .inr ⟨hbar, rfl⟩, (), rest, ⟨c, hc, rfl⟩, rfl⟩
  | @annotations b o c us _ _ hb ho hcs hc =>
    have hseq := sequence_complete (constant_complete hl) (by decide) hcs hfit.tail.tail
      (.symbol hc (by decide))
    exact ⟨cs, c :: rest, .inl ⟨b, _, hb, rfl, (), us, ⟨o, ho, rfl⟩, hseq⟩, (), rest, ⟨c, hc, rfl⟩,
      rfl⟩

theorem annotated_complete (hl : l.Complete n) {inner : Parser (Ann f.Tree)} {bare : Parser f.Tree}
    (hinner : (Form.annotated f).Complete l.digits n inner)
    (hbare : f.Complete l.digits (n + 1) bare) (hparen : "(" ∉ f.openers)
    (hclosing : ∀ s ∈ f.notNext, s ∉ Form.closing.openers) :
    (Form.annotated f).Complete l.digits (n + 1) (l.annotated inner bare) := by
  intro ts a rest h hfit hends
  simp only [annotated, onSymbol_single_eq_ok]
  cases h with
  | plain hx =>
    refine .inr ⟨hx.begins.startsWith_eq_false hparen, ?_⟩
    exact map_eq_ok.2 ⟨_, hbare hx hfit hends, rfl⟩
  | @parens _ o us mid _ a cs ho ha hcs =>
    have ha' := hinner ha hfit.down (.begins hcs.begins hclosing)
    have hcs' := closing_complete hl hcs (hfit.down.after ha) (.free rfl)
    refine .inl ⟨o, us, ho, rfl, ?_⟩
    simp only [bind_eq_ok]
    exact ⟨a, mid, ha', cs, rest, hcs', rfl⟩

/-! ## Constants -/

theorem mapOp_complete : Form.mapOp.Complete digits n mapOp := by
  intro ts op rest h hfit hends
  unfold mapOp
  cases h with
  | put ht => exact onSymbol_eq_of_mem (p := pure MapOp.put) (by decide) (by simp) ht
  | update ht => exact onSymbol_eq_of_mem (p := pure MapOp.update) (by decide) (by simp) ht

theorem constSegment_complete (hl : l.Complete n) :
    Form.constSegment.Complete l.digits n l.constSegment := by
  intro ts cs rest h hfit hends
  cases h with
  | @constSegment o c p us mid _ value ms ho hvalue hc hp hms =>
    have hvalue' := constant_complete hl hvalue hfit.tail (.free rfl)
    have hms' := sequence_complete (constant_complete hl) (by decide) hms
      (hfit.tail.after hvalue).tail.tail (.free rfl)
    simp only [constSegment, bind_eq_ok]
    exact ⟨(value, ms), rest, segment_eq_ok.2 ⟨o, c, p, us, mid, ho, hc, hp, rfl, hvalue', hms'⟩, rfl⟩

theorem constPair_complete (hl : l.Complete n) : Form.constPair.Complete l.digits n l.constPair := by
  intro ts pair rest h hfit hends
  cases h with
  | @constPair _ mid mid' _ key value op hkey hop hvalue =>
    have hkey' := constant_complete hl hkey hfit (.free rfl)
    have hop' := mapOp_complete hop (hfit.after hkey) (.free rfl)
    have hvalue' := constant_complete hl hvalue ((hfit.after hkey).after hop) (.free rfl)
    simp only [constPair, bind_eq_ok]
    exact ⟨key, mid, hkey', op, mid', hop', value, rest, hvalue', rfl⟩

/-- A constant that begins with a symbol is read by the parser for this symbol. -/
theorem bareConst_of_mem {s : String} {o : Token} {p : Parser Const} (ho : o.is s)
    (hmem : (s, p) ∈ l.constCases) : l.bareConst (o :: ts) = p ts := by
  have hliteral : literal? l.digits (o :: ts) = .ok (none, o :: ts) := by
    simp [Token.literal?_of_is ho]
  rw [bareConst, bind_of_ok hliteral]
  exact onSymbol_eq_of_mem (by simp [constCases]) hmem ho

theorem bareConst_complete (hl : l.Complete n) :
    (Form.bare .const).Complete l.digits (n + 1) l.bareConst := by
  intro ts x rest h hfit hends
  cases h with
  | list ho hcells =>
    rw [bareConst_of_mem (p := bracketed l.constant (.lit .nil) .list) ho (by simp [constCases])]
    exact bracketed_complete (constant_complete hl) hcells hfit.down
  | base h =>
    cases h with
    | @lit _ _ _ value h =>
      cases h with
      | @literal t _ _ ht =>
        have hvalue := ht.literal?_eq (hfit.short t List.mem_cons_self)
        simp only [bareConst, bind_eq_ok, literal?_eq_ok]
        exact ⟨some value, rest, .inl ⟨t, value, hvalue, rfl, rfl⟩, rfl⟩
    | nil ho hc =>
      rw [bareConst_of_mem (p := bracketed l.constant (.lit .nil) .list) ho (by simp [constCases])]
      exact bracketed_nil (s := .const) hc
    | tuple ho hxs =>
      rw [bareConst_of_mem (p := .tuple <$> sequence l.constant "\x7d") ho (by simp [constCases])]
      exact map_sequence_complete (constant_complete hl) (by decide) hxs hfit.down
    | constBinary ho hxs =>
      rw [bareConst_of_mem (p := .binary <$> sequence l.constSegment "\x7d#") ho
        (by simp [constCases])]
      exact map_sequence_complete (constSegment_complete hl) (by decide) hxs hfit.down
    | constMap ho hxs =>
      rw [bareConst_of_mem (p := .map <$> sequence l.constPair "\x7d~") ho (by simp [constCases])]
      exact map_sequence_complete (constPair_complete hl) (by decide) hxs hfit.down

/-! ## Names and variables -/

theorem bareFunName_complete : Form.funName.Complete l.digits n l.bareFunName := by
  intro ts name rest h hfit hends
  cases h with
  | @funName a s m _ ha hs hm =>
    have hshort := hfit.short m (by simp) hm
    have harity : Numeral.integer l.digits m.text = .ok (Numeral.integerValue m.text.toList) := by
      rw [Numeral.integer, if_neg (Nat.not_lt.2 hshort)]
    simp only [bareFunName, bind_eq_ok, expectKind_eq_ok, expect_eq_ok, converted_eq_ok]
    exact ⟨a.text, _, ⟨a, ha, rfl, rfl⟩, (), _, ⟨s, hs, rfl⟩, m.text, rest, ⟨m, hm, rfl, rfl⟩, _, rest,
      ⟨harity, rfl⟩, rfl⟩

theorem varList_complete (hl : l.Complete n) : Form.varList.Complete l.digits n l.varList := by
  intro ts vs rest h hfit hends
  simp only [varList, onSymbol_single_eq_ok, bind_eq_ok]
  cases h with
  | @manyVars o us _ _ ho hvs =>
    exact .inl ⟨o, us, ho, rfl,
      sequence_complete (variableName_complete hl) (by decide) hvs hfit.tail (.free rfl)⟩
  | @oneVar _ _ v hv =>
    exact .inr ⟨hv.begins.startsWith_eq_false (by decide), v, rest,
      variableName_complete hl hv hfit (.free rfl), rfl⟩

/-! ## Patterns -/

theorem patterns_complete (hl : l.Complete n) : Form.patterns.Complete l.digits n l.patterns := by
  intro ts ps rest h hfit hends
  simp only [patterns, onSymbol_single_eq_ok, bind_eq_ok]
  cases h with
  | @manyPatterns o us _ _ ho hps =>
    exact .inl ⟨o, us, ho, rfl,
      sequence_complete (plainPattern_complete hl) (by decide) hps hfit.tail (.free rfl)⟩
  | @onePattern _ _ p hp =>
    exact .inr ⟨hp.begins.startsWith_eq_false (by decide), p, rest,
      plainPattern_complete hl hp hfit hends, rfl⟩

theorem patternSegment_complete (hl : l.Complete n) :
    Form.patternSegment.Complete l.digits n l.patternSegment := by
  intro ts x rest h hfit hends
  cases h with
  | @patternSegment o c p us mid _ pattern size unit type flags ho hpattern hc hp hms =>
    have hpattern' := plainPattern_complete hl hpattern hfit.tail (.symbol hc (by decide))
    have hms' := sequence_complete (expr_complete hl) (by decide) hms
      (hfit.tail.after hpattern).tail.tail (.free rfl)
    have hseg := segment_eq_ok.2 ⟨o, c, p, us, mid, ho, hc, hp, rfl, hpattern', hms'⟩
    exact fullSegment_eq_ok.2 ⟨pattern, size, unit, type, flags, hseg, rfl⟩

theorem patternPair_complete (hl : l.Complete n) :
    Form.patternPair.Complete l.digits n l.patternPair := by
  intro ts x rest h hfit hends
  cases h with
  | @patternPair c _ mid _ key pattern hkey hc hpattern =>
    have hkey' := expr_complete hl hkey hfit (.symbol hc (by decide))
    have hpattern' := plainPattern_complete hl hpattern (hfit.after hkey).tail hends
    simp only [patternPair, bind_eq_ok, expect_eq_ok]
    exact ⟨key, c :: mid, hkey', (), mid, ⟨c, hc, rfl⟩, pattern, rest, hpattern', rfl⟩

/-- A pattern that begins with a symbol is read by the parser for this symbol. -/
theorem barePattern_of_mem {s : String} {o : Token} {p : Parser Pattern} (ho : o.is s)
    (hmem : (s, p) ∈ l.patternCases) : l.barePattern (o :: ts) = p ts := by
  have hvar : var? (o :: ts) = .ok (none, o :: ts) := by
    simp [Token.kind_ne_var_of_is ho]
  have hliteral : literal? l.digits (o :: ts) = .ok (none, o :: ts) := by
    simp [Token.literal?_of_is ho]
  rw [barePattern, bind_of_ok hvar]
  exact (bind_of_ok hliteral).trans (onSymbol_eq_of_mem (by simp [patternCases]) hmem ho)

theorem barePattern_complete (hl : l.Complete n) :
    (Form.bare .pattern).Complete l.digits (n + 1) l.barePattern := by
  intro ts x rest h hfit hends
  cases h with
  | list ho hcells =>
    rw [barePattern_of_mem (p := bracketed l.plainPattern (.lit .nil) .list) ho
      (by simp [patternCases])]
    exact bracketed_complete (plainPattern_complete hl) hcells hfit.down
  | base h =>
    cases h with
    | @patternVar v _ hv =>
      simp only [barePattern, bind_eq_ok, var?_eq_ok]
      refine ⟨some v.text, rest, .inl ⟨v, hv, rfl, rfl⟩, onSymbol_single_eq_ok.2 ?_⟩
      exact .inr ⟨hends "=" (by decide), rfl⟩
    | @aliased v e us _ p hv he hp =>
      simp only [barePattern, bind_eq_ok, var?_eq_ok]
      refine ⟨some v.text, e :: us, .inl ⟨v, hv, rfl, rfl⟩, onSymbol_single_eq_ok.2 ?_⟩
      have hp' := plainPattern_complete hl hp hfit.down.tail hends
      exact .inl ⟨e, us, he, rfl, map_eq_ok.2 ⟨p, hp', rfl⟩⟩
    | @lit _ _ _ value h =>
      cases h with
      | @literal t _ _ ht =>
        have hvar : t.kind ≠ .var := ht.kind_ne_var
        have hvalue := ht.literal?_eq (hfit.short t List.mem_cons_self)
        simp only [barePattern, bind_eq_ok, var?_eq_ok]
        refine ⟨none, t :: rest, .inr ⟨rfl, rfl, by simpa using hvar⟩, ?_⟩
        simp only [bind_eq_ok, literal?_eq_ok]
        exact ⟨some value, rest, .inl ⟨t, value, hvalue, rfl, rfl⟩, rfl⟩
    | nil ho hc =>
      rw [barePattern_of_mem (p := bracketed l.plainPattern (.lit .nil) .list) ho
        (by simp [patternCases])]
      exact bracketed_nil (s := .pattern) hc
    | tuple ho hxs =>
      rw [barePattern_of_mem (p := .tuple <$> sequence l.plainPattern "\x7d") ho
        (by simp [patternCases])]
      exact map_sequence_complete (plainPattern_complete hl) (by decide) hxs hfit.down
    | patternBinary ho hxs =>
      rw [barePattern_of_mem (p := .binary <$> sequence l.patternSegment "\x7d#") ho
        (by simp [patternCases])]
      exact map_sequence_complete (patternSegment_complete hl) (by decide) hxs hfit.down
    | patternMap ho hxs =>
      rw [barePattern_of_mem (p := .map <$> sequence l.patternPair "\x7d~") ho
        (by simp [patternCases])]
      exact map_sequence_complete (patternPair_complete hl) (by decide) hxs hfit.down

/-! ## Clauses and definitions -/

/-- Patterns that begin with a parenthesis are one pattern with parentheses around it. -/
theorem inside_parens {o : Token} {ps : List Pattern}
    (h : Writes .patterns (o :: ts) ps rest) (ho : o.is "(") :
    ∃ p mid cs, Writes .patterns ts [p] mid ∧ Writes .closing mid cs rest := by
  cases h with
  | manyPatterns ho' _ => exact absurd (Token.is_inj ho ho') (by decide)
  | onePattern h =>
    cases h with
    | element h =>
      cases h with
      | parens _ ha hcs => exact ⟨_, _, _, .onePattern (.element ha), hcs⟩
      | plain h =>
        have := h.begins.startsWith_eq_false (s := "(") (by decide)
        simp [startsWith, ho] at this

theorem clauseRest_complete (hl : l.Complete n) {w a : Token} (ps : List Pattern)
    {guard body : Ann Expr} (hw : w.is "when") (hguard : Writes (.element .expr) mid guard (a :: mid'))
    (ha : a.is "->") (hbody : Writes (.element .expr) mid' body rest) (hfit : Fits l.digits n mid)
    (hends : Form.clause.Ends rest) :
    l.clauseRest ps (w :: mid) = .ok (⟨ps, guard, body⟩, rest) := by
  have hguard' := expr_complete hl hguard hfit (.symbol ha (by decide))
  have hbody' := expr_complete hl hbody (hfit.after hguard).tail hends
  simp only [clauseRest, bind_eq_ok, expect_eq_ok]
  exact ⟨(), mid, ⟨w, hw, rfl⟩, guard, a :: mid', hguard', (), mid', ⟨a, ha, rfl⟩, body, rest, hbody',
    rfl⟩

/-- The first attempt at a clause that does not have parentheses around it comes to nothing: the
parentheses, if there are any, are those of its pattern. -/
theorem clause_of_patterns (hl : l.Complete n) {w : Token} {ps : List Pattern}
    (hps : Writes .patterns ts ps (w :: mid)) (hw : w.is "when") (hfit : Fits l.digits n ts)
    {c : Clause} (hc : l.clauseRest ps (w :: mid) = .ok (c, rest)) :
    l.clause ts = .ok (.plain c, rest) := by
  have hps' := patterns_complete hl hps hfit (.symbol hw (by decide))
  simp only [clause, bind_eq_ok, get_eq_ok, accept_eq_ok]
  refine ⟨ts, ts, ⟨rfl, rfl⟩, ?_⟩
  cases hparen : startsWith "(" ts with
  | false =>
    refine ⟨false, ts, .inr ⟨rfl, rfl, rfl⟩, ?_⟩
    simp only [Bool.false_eq_true, if_false, bind_eq_ok]
    exact ⟨ps, w :: mid, hps', c, rest, hc, rfl⟩
  | true =>
    obtain ⟨o, us, ho, rfl⟩ := startsWith_iff.1 hparen
    obtain ⟨p, inner, cs, hinner, hclosing⟩ := inside_parens hps ho
    have hinner' := patterns_complete hl hinner hfit.tail (.begins hclosing.begins (by decide))
    have hwhen := hclosing.begins.startsWith_eq_false (s := "when") (by decide)
    refine ⟨true, us, .inl ⟨rfl, o, ho, rfl⟩, ?_⟩
    simp only [if_true, bind_eq_ok, ahead_eq_ok]
    refine ⟨[p], inner, hinner', false, inner, ⟨hwhen.symm, rfl⟩, ?_⟩
    simp only [Bool.false_eq_true, if_false, bind_eq_ok, set_eq_ok]
    exact ⟨(), o :: us, rfl, ps, w :: mid, hps', c, rest, hc, rfl⟩

theorem clause_complete (hl : l.Complete n) : Form.clause.Complete l.digits n l.clause := by
  intro ts x rest h hfit hends
  cases h with
  | clause h =>
    cases h with
    | bareClause hps hw hguard ha hbody =>
      have hfit' := (hfit.after hps).tail
      exact clause_of_patterns hl hps hw hfit (clauseRest_complete hl _ hw hguard ha hbody hfit' hends)
  | @parensClause o us mid _ c cs ho h hcs =>
    cases h with
    | @bareClause w a _ m₁ m₂ _ ps guard body hps hw hguard ha hbody =>
      have hps' := patterns_complete hl hps hfit.tail (.symbol hw (by decide))
      have hfit' := (hfit.tail.after hps).tail
      have hrest := clauseRest_complete hl ps hw hguard ha hbody hfit'
        (.begins hcs.begins (by decide))
      have hcs' := closing_complete hl hcs ((hfit'.after hguard).tail.after hbody) (.free rfl)
      simp only [clause, bind_eq_ok, get_eq_ok, accept_eq_ok]
      refine ⟨_, _, ⟨rfl, rfl⟩, true, us, .inl ⟨rfl, o, ho, rfl⟩, ?_⟩
      simp only [if_true, bind_eq_ok, ahead_eq_ok]
      refine ⟨ps, w :: m₁, hps', true, w :: m₁, ⟨hw.symm, rfl⟩, ?_⟩
      simp only [if_true, bind_eq_ok]
      exact ⟨_, mid, hrest, cs, rest, hcs', rfl⟩

theorem clauses_complete (hl : l.Complete n) {stop : String} (hstop : Form.clause.StoppedBy stop) :
    (Form.run .clause stop).Complete l.digits n (l.clauses stop) := by
  intro ts cs rest h hfit hends
  obtain ⟨c, hc, hrun⟩ := itemsBefore_complete (clause_complete hl) hstop h hfit (Nat.le_refl _)
  simp only [clauses, bind_eq_ok, remaining_eq_ok, expect_eq_ok]
  exact ⟨_, ts, ⟨rfl, rfl⟩, cs, c :: rest, hrun, (), rest, ⟨c, hc, rfl⟩, rfl⟩

theorem definition_complete (hl : l.Complete n) :
    Form.definition.Complete l.digits n l.definition := by
  intro ts x rest h hfit hends
  cases h with
  | @definition e _ mid _ name params body annotations hname he hfunction =>
    have hname' := hl.funName hname hfit (.free rfl)
    have hfunction' := expr_complete hl hfunction (hfit.after hname).tail hends
    simp only [definition, bind_eq_ok, expect_eq_ok]
    exact ⟨name, e :: mid, hname', (), mid, ⟨e, he, rfl⟩, _, rest, hfunction', rfl⟩

theorem definitions_complete (hl : l.Complete n) {stop : String}
    (hstop : Form.definition.StoppedBy stop) :
    (Form.run .definition stop).Complete l.digits n (l.definitions stop) := by
  intro ts ds rest h hfit hends
  obtain ⟨c, hc, hrun⟩ := itemsBefore_complete (definition_complete hl) hstop h hfit
    (Nat.le_refl _)
  simp only [definitions, bind_eq_ok, remaining_eq_ok, expect_eq_ok]
  exact ⟨_, ts, ⟨rfl, rfl⟩, ds, c :: rest, hrun, (), rest, ⟨c, hc, rfl⟩, rfl⟩

/-! ## Expressions -/

theorem exprSegment_complete (hl : l.Complete n) :
    Form.segment.Complete l.digits n l.exprSegment := by
  intro ts x rest h hfit hends
  cases h with
  | @segment o c p us mid _ value size unit type flags ho hvalue hc hp hms =>
    have hvalue' := expr_complete hl hvalue hfit.tail (.symbol hc (by decide))
    have hms' := sequence_complete (expr_complete hl) (by decide) hms
      (hfit.tail.after hvalue).tail.tail (.free rfl)
    have hseg := segment_eq_ok.2 ⟨o, c, p, us, mid, ho, hc, hp, rfl, hvalue', hms'⟩
    exact fullSegment_eq_ok.2 ⟨value, size, unit, type, flags, hseg, rfl⟩

theorem mapPair_complete (hl : l.Complete n) : Form.mapPair.Complete l.digits n l.mapPair := by
  intro ts pair rest h hfit hends
  cases h with
  | @mapPair _ mid mid' _ key value op hkey hop hvalue =>
    have hkey' := expr_complete hl hkey hfit (.begins hop.begins (by decide))
    have hop' := mapOp_complete hop (hfit.after hkey) (.free rfl)
    have hvalue' := expr_complete hl hvalue ((hfit.after hkey).after hop) hends
    simp only [mapPair, bind_eq_ok]
    exact ⟨key, mid, hkey', op, mid', hop', value, rest, hvalue', rfl⟩

theorem mapPairs_complete (hl : l.Complete n) {pairs : List MapPair}
    (h : Writes (.items .mapPair) ts pairs rest) (hfit : Fits l.digits n ts)
    (hends : (Form.items .mapPair).Ends rest) : l.mapPairs ts = .ok (pairs, rest) := by
  have hclose := h.begins.startsWith_eq_false (s := "\x7d~") (by decide)
  have hbar := h.begins.startsWith_eq_false (s := "|") (by decide)
  have hitems := items_complete (mapPair_complete hl) (by decide) h hfit hends
  simp only [mapPairs, bind_eq_ok, ahead_eq_ok]
  refine ⟨_, ts, ⟨rfl, rfl⟩, _, ts, ⟨rfl, rfl⟩, ?_⟩
  simpa [hclose, hbar] using hitems

theorem mapPairs_nil (h : startsWith "\x7d~" ts ∨ startsWith "|" ts) :
    l.mapPairs ts = .ok ([], ts) := by
  simp only [mapPairs, bind_eq_ok, ahead_eq_ok]
  refine ⟨_, ts, ⟨rfl, rfl⟩, _, ts, ⟨rfl, rfl⟩, ?_⟩
  rw [if_pos (by simpa using h)]
  rfl

theorem mapBody_complete (hl : l.Complete n) {body : List MapPair × Option (Ann Expr)}
    (h : Writes .mapBody ts body rest) (hfit : Fits l.digits n ts) :
    l.mapBody ts = .ok (.map body.1 body.2, rest) := by
  simp only [mapBody, bind_eq_ok, onSymbol_single_eq_ok, expect_eq_ok]
  cases h with
  | @emptyMap c _ hc =>
    have hnone : startsWith "|" (c :: rest) = false := Token.is_eq_false hc (by decide)
    exact ⟨[], _, mapPairs_nil (.inl hc), none, _, .inr ⟨hnone, rfl⟩, (), rest, ⟨c, hc, rfl⟩, rfl⟩
  | @newMap c _ _ pairs hpairs hc =>
    have hpairs' := mapPairs_complete hl hpairs hfit (.symbol hc (by decide))
    have hnone : startsWith "|" (c :: rest) = false := Token.is_eq_false hc (by decide)
    exact ⟨pairs, _, hpairs', none, _, .inr ⟨hnone, rfl⟩, (), rest, ⟨c, hc, rfl⟩, rfl⟩
  | @sameMap b c us _ e hb he hc =>
    have he' := expr_complete hl he hfit.tail (.symbol hc (by decide))
    have hsome : (some <$> l.expr) us = .ok (some e, c :: rest) := map_eq_ok.2 ⟨e, he', rfl⟩
    exact ⟨[], _, mapPairs_nil (.inr hb), some e, _, .inl ⟨b, us, hb, rfl, hsome⟩, (), rest,
      ⟨c, hc, rfl⟩, rfl⟩
  | @changedMap b c _ mid _ pairs e hpairs hb he hc =>
    have hpairs' := mapPairs_complete hl hpairs hfit (.symbol hb (by decide))
    have he' := expr_complete hl he (hfit.after hpairs).tail (.symbol hc (by decide))
    have hsome : (some <$> l.expr) mid = .ok (some e, c :: rest) := map_eq_ok.2 ⟨e, he', rfl⟩
    exact ⟨pairs, _, hpairs', some e, _, .inl ⟨b, mid, hb, rfl, hsome⟩, (), rest, ⟨c, hc, rfl⟩, rfl⟩

theorem arguments_complete (hl : l.Complete n) :
    Form.arguments.Complete l.digits n l.arguments := by
  intro ts args rest h hfit hends
  cases h with
  | @arguments o us _ _ ho hargs =>
    have hargs' := sequence_complete (expr_complete hl) (by decide) hargs hfit.tail (.free rfl)
    simp only [arguments, bind_eq_ok, expect_eq_ok]
    exact ⟨(), us, ⟨o, ho, rfl⟩, hargs'⟩

/-! ### Bindings and first steps -/

theorem bindingThen_complete (hl : l.Complete n) {body : Parser (Ann Expr)} {e i : Token}
    {vars : List String} {value x : Ann Expr} (hvars : Writes .varList ts vars (e :: mid))
    (he : e.is "=") (hvalue : Writes (.element .expr) mid value (i :: mid')) (hi : i.is "in")
    (hfit : Fits l.digits n ts) (hbody : body mid' = .ok (x, rest)) :
    l.bindingThen body ts = .ok (.letIn vars value x, rest) := by
  have hvars' := varList_complete hl hvars hfit (.free rfl)
  have hvalue' := expr_complete hl hvalue (hfit.after hvars).tail (.symbol hi (by decide))
  simp only [bindingThen, bind_eq_ok, expect_eq_ok]
  exact ⟨vars, e :: mid, hvars', (), mid, ⟨e, he, rfl⟩, value, i :: mid', hvalue', (), mid',
    ⟨i, hi, rfl⟩, x, rest, hbody, rfl⟩

theorem stepThen_complete (hl : l.Complete n) {next : Parser (Ann Expr)} {first x y : Ann Expr}
    (hfirst : Writes (.element .expr) ts first mid) (hx : Writes (.element .expr) mid y rest)
    (hfit : Fits l.digits n ts) (hnext : next mid = .ok (x, rest)) :
    l.stepThen next ts = .ok (.seq first x, rest) := by
  have hfirst' := expr_complete hl hfirst hfit (.begins hx.begins (by decide))
  simp only [stepThen, bind_eq_ok]
  exact ⟨first, mid, hfirst', x, rest, hnext, rfl⟩

/-- The parser for the body of a binding may be that of a chain of any length. -/
theorem chain_complete (hl : l.Complete n) (m : Nat) :
    (Form.element .expr).Complete l.digits n (l.chain m) := by
  induction m with
  | zero => exact expr_complete hl
  | succ m ih =>
    intro ts x rest h hfit hends
    have hother (hlet : startsWith "let" ts = false) (hdo : startsWith "do" ts = false) :
        l.chain (m + 1) ts = .ok (x, rest) := by
      refine (onKeyword_eq_otherwise ?_).trans (expr_complete hl h hfit hends)
      simp only [List.forall_mem_cons]
      exact ⟨not_isKeyword_of_startsWith hlet, not_isKeyword_of_startsWith hdo,
        List.forall_mem_nil _⟩
    cases h with
    | element ha =>
      cases ha with
      | parens ho ha hc =>
        exact hother (Token.is_eq_false ho (by decide)) (Token.is_eq_false ho (by decide))
      | plain h =>
        cases h with
        | list ho hcells =>
          exact hother (Token.is_eq_false ho (by decide)) (Token.is_eq_false ho (by decide))
        | base h =>
          cases h
          case letIn hk hvars he hvalue hi hbody =>
            have hfit' := ((hfit.tail.after hvars).tail.after hvalue).tail
            rw [chain_of_let m hk]
            exact map_eq_ok.2 ⟨_, bindingThen_complete hl hvars he hvalue hi hfit.tail
              (ih hbody hfit' hends), rfl⟩
          case seq hk hfirst hnext =>
            rw [chain_of_do m hk]
            exact map_eq_ok.2 ⟨_, stepThen_complete hl hfirst hnext hfit.tail
              (ih hnext (hfit.tail.after hfirst) hends), rfl⟩
          case lit h =>
            cases h with
            | literal ht => exact hother (ht.is_eq_false _) (ht.is_eq_false _)
          case funRef h =>
            cases h with
            | funName ha =>
              exact hother (Token.is_of_kind _ ha (by decide)) (Token.is_of_kind _ ha (by decide))
          case var hv =>
            exact hother (Token.is_of_kind _ hv (by decide)) (Token.is_of_kind _ hv (by decide))
          all_goals first
            | exact hother (Token.is_eq_false ‹_› (by decide)) (Token.is_eq_false ‹_› (by decide))
            | exact hother (Token.is_eq_false (Token.IsKeyword.is ‹_›) (by decide))
                (Token.is_eq_false (Token.IsKeyword.is ‹_›) (by decide))

/-! ### Keywords -/

theorem lambda_complete (hl : l.Complete n) {o a : Token} {params : List String} {body : Ann Expr}
    (ho : o.is "(") (hparams : Writes (.sequence (.stripped .var) ")") ts params (a :: mid))
    (ha : a.is "->") (hbody : Writes (.element .expr) mid body rest)
    (hfit : Fits l.digits n (o :: ts)) (hends : (Form.element .expr).Ends rest) :
    l.lambda (o :: ts) = .ok (.lambda params body, rest) := by
  have hparams' := sequence_complete (variableName_complete hl) (by decide) hparams hfit.tail (.free rfl)
  have hbody' := expr_complete hl hbody (hfit.tail.after hparams).tail hends
  simp only [lambda, bind_eq_ok, expect_eq_ok]
  exact ⟨(), ts, ⟨o, ho, rfl⟩, params, a :: mid, hparams', (), mid, ⟨a, ha, rfl⟩, body, rest, hbody', rfl⟩

theorem letRec_complete (hl : l.Complete n) {ds : List (Ann Definition)} {body : Ann Expr}
    (hds : Writes (.run .definition "in") ts ds mid) (hbody : Writes (.element .expr) mid body rest)
    (hfit : Fits l.digits n ts) (hends : (Form.element .expr).Ends rest) :
    l.letRec ts = .ok (.letRec ds body, rest) := by
  have hds' := definitions_complete hl (by decide) hds hfit (.free rfl)
  have hbody' := expr_complete hl hbody (hfit.after hds) hends
  simp only [letRec, bind_eq_ok]
  exact ⟨ds, mid, hds', body, rest, hbody', rfl⟩

theorem caseOf_complete (hl : l.Complete n) {o : Token} {subject : Ann Expr} {cs : List (Ann Clause)}
    (hsubject : Writes (.element .expr) ts subject (o :: mid)) (ho : o.is "of")
    (hcs : Writes (.run .clause "end") mid cs rest) (hfit : Fits l.digits n ts) :
    l.caseOf ts = .ok (.caseOf subject cs, rest) := by
  have hsubject' := expr_complete hl hsubject hfit (.symbol ho (by decide))
  have hcs' := clauses_complete hl (by decide) hcs (hfit.after hsubject).tail (.free rfl)
  simp only [caseOf, bind_eq_ok, expect_eq_ok]
  exact ⟨subject, o :: mid, hsubject', (), mid, ⟨o, ho, rfl⟩, cs, rest, hcs', rfl⟩

theorem receive_complete (hl : l.Complete n) {a : Token} {cs : List (Ann Clause)}
    {timeout action : Ann Expr} (hcs : Writes (.run .clause "after") ts cs mid)
    (htimeout : Writes (.element .expr) mid timeout (a :: mid')) (ha : a.is "->")
    (haction : Writes (.element .expr) mid' action rest) (hfit : Fits l.digits n ts)
    (hends : (Form.element .expr).Ends rest) :
    l.receive ts = .ok (.receive cs timeout action, rest) := by
  have hcs' := clauses_complete hl (by decide) hcs hfit (.free rfl)
  have htimeout' := expr_complete hl htimeout (hfit.after hcs) (.symbol ha (by decide))
  have haction' := expr_complete hl haction ((hfit.after hcs).after htimeout).tail hends
  simp only [receive, bind_eq_ok, expect_eq_ok]
  exact ⟨cs, mid, hcs', timeout, a :: mid', htimeout', (), mid', ⟨a, ha, rfl⟩, action, rest, haction',
    rfl⟩

theorem apply_complete (hl : l.Complete n) {function : Ann Expr} {args : List (Ann Expr)}
    (hfunction : Writes (.element .expr) ts function mid) (hargs : Writes .arguments mid args rest)
    (hfit : Fits l.digits n ts) : l.apply ts = .ok (.apply function args, rest) := by
  have hfunction' := expr_complete hl hfunction hfit (.begins hargs.begins (by decide))
  have hargs' := arguments_complete hl hargs (hfit.after hfunction) (.free rfl)
  simp only [apply, bind_eq_ok]
  exact ⟨function, mid, hfunction', args, rest, hargs', rfl⟩

theorem call_complete (hl : l.Complete n) {c : Token} {unit function : Ann Expr}
    {args : List (Ann Expr)} (hunit : Writes (.element .expr) ts unit (c :: mid)) (hc : c.is ":")
    (hfunction : Writes (.element .expr) mid function mid')
    (hargs : Writes .arguments mid' args rest) (hfit : Fits l.digits n ts) :
    l.call ts = .ok (.call unit function args, rest) := by
  have hfit' := (hfit.after hunit).tail
  have hunit' := expr_complete hl hunit hfit (.symbol hc (by decide))
  have hfunction' := expr_complete hl hfunction hfit' (.begins hargs.begins (by decide))
  have hargs' := arguments_complete hl hargs (hfit'.after hfunction) (.free rfl)
  simp only [call, bind_eq_ok, expect_eq_ok]
  exact ⟨unit, c :: mid, hunit', (), mid, ⟨c, hc, rfl⟩, function, mid', hfunction', args, rest, hargs',
    rfl⟩

theorem primop_complete (hl : l.Complete n) {name : Ann String} {args : List (Ann Expr)}
    (hname : Writes (.annotated .atom) ts name mid) (hargs : Writes .arguments mid args rest)
    (hfit : Fits l.digits n ts) : l.primop ts = .ok (.primop name.node args, rest) := by
  have hname' := hl.atom hname hfit (.free rfl)
  have hargs' := arguments_complete hl hargs (hfit.after hname) (.free rfl)
  simp only [primop, bind_eq_ok]
  exact ⟨name, mid, hname', args, rest, hargs', rfl⟩

theorem tryOf_complete (hl : l.Complete n) {o a c a' : Token} {m₁ m₂ m₃ m₄ : List Token}
    {body success handler : Ann Expr} {vars handlerVars : List String}
    (hbody : Writes (.element .expr) ts body (o :: m₁)) (ho : o.is "of")
    (hvars : Writes .varList m₁ vars (a :: m₂)) (ha : a.is "->")
    (hsuccess : Writes (.element .expr) m₂ success (c :: m₃)) (hc : c.is "catch")
    (hhandlerVars : Writes .varList m₃ handlerVars (a' :: m₄)) (ha' : a'.is "->")
    (hhandler : Writes (.element .expr) m₄ handler rest) (hfit : Fits l.digits n ts)
    (hends : (Form.element .expr).Ends rest) :
    l.tryOf ts = .ok (.tryOf body vars success handlerVars handler, rest) := by
  have hfit₁ := (hfit.after hbody).tail
  have hfit₂ := (hfit₁.after hvars).tail
  have hfit₃ := (hfit₂.after hsuccess).tail
  have hbody' := expr_complete hl hbody hfit (.symbol ho (by decide))
  have hvars' := varList_complete hl hvars hfit₁ (.free rfl)
  have hsuccess' := expr_complete hl hsuccess hfit₂ (.symbol hc (by decide))
  have hhandlerVars' := varList_complete hl hhandlerVars hfit₃ (.free rfl)
  have hhandler' := expr_complete hl hhandler (hfit₃.after hhandlerVars).tail hends
  simp only [tryOf, bind_eq_ok, expect_eq_ok]
  exact ⟨body, o :: m₁, hbody', (), m₁, ⟨o, ho, rfl⟩, vars, a :: m₂, hvars', (), m₂, ⟨a, ha, rfl⟩,
    success, c :: m₃, hsuccess', (), m₃, ⟨c, hc, rfl⟩, handlerVars, a' :: m₄, hhandlerVars', (), m₄,
    ⟨a', ha', rfl⟩, handler, rest, hhandler', rfl⟩

/-! ### All expressions -/

/-- An expression that begins with a symbol is neither a variable nor a literal. -/
theorem bareExpr_of_is {s : String} {k : Token} (hk : k.is s) :
    l.bareExpr (k :: ts) = l.compoundExpr (k :: ts) := by
  have hvar : var? (k :: ts) = .ok (none, k :: ts) := by
    simp [Token.kind_ne_var_of_is hk]
  have hget : (get : Parser (List Token)) (k :: ts) = .ok (k :: ts, k :: ts) := rfl
  have hname : opensFunName (k :: ts) = false := by
    rcases Token.kind_of_is hk with h | h <;> simp [opensFunName, h]
  have hliteral : literal? l.digits (k :: ts) = .ok (none, k :: ts) := by
    simp [Token.literal?_of_is hk]
  rw [bareExpr, bind_of_ok hvar]
  refine (bind_of_ok hget).trans ?_
  rw [if_neg (by simp [hname])]
  exact bind_of_ok hliteral

/-- An expression that begins with a keyword is read by the parser for this keyword. -/
theorem bareExpr_of_keyword {s : String} {k : Token} {p : Parser Expr} (hk : k.IsKeyword s)
    (hmem : (s, p) ∈ l.headCases ts.length) : l.bareExpr (k :: ts) = p ts := by
  rw [bareExpr_of_is hk.is, compoundExpr_apply]
  exact onKeyword_eq_of_mem (by simp [headCases, keywordCases]) hmem hk

/-- An expression that begins with a bracket is read by the parser for this bracket. -/
theorem bareExpr_of_mem {s : String} {o : Token} {p : Parser Expr} (ho : o.is s)
    (hmem : (s, p) ∈ l.exprCases) : l.bareExpr (o :: ts) = p ts := by
  have hnames : ∀ c ∈ l.headCases ts.length, c.1 ∉ l.exprCases.map Prod.fst := by
    simp [headCases, keywordCases, exprCases]
  have hkeyword : ∀ c ∈ l.headCases ts.length, ∀ t ∈ (o :: ts).head?, ¬t.IsKeyword c.1 := by
    intro c hc t ht hk
    obtain rfl := Option.some.inj ht
    obtain rfl := Token.is_inj hk.is ho
    exact hnames c hc (List.mem_map.2 ⟨_, hmem, rfl⟩)
  rw [bareExpr_of_is ho, compoundExpr_apply]
  refine (onKeyword_eq_otherwise hkeyword).trans ?_
  exact onSymbol_eq_of_mem (by simp [exprCases]) hmem ho

theorem bareExpr_complete (hl : l.Complete n) :
    (Form.bare .expr).Complete l.digits (n + 1) l.bareExpr := by
  intro ts x rest h hfit hends
  cases h with
  | list ho hcells =>
    rw [bareExpr_of_mem (p := bracketed l.expr (.lit .nil) .list) ho (by simp [exprCases])]
    exact bracketed_complete (expr_complete hl) hcells hfit.down
  | base h =>
    cases h with
    | @var v _ hv =>
      simp only [bareExpr, bind_eq_ok, var?_eq_ok]
      exact ⟨some v.text, rest, .inl ⟨v, hv, rfl, rfl⟩, rfl⟩
    | @funRef _ _ name h =>
      have hname := bareFunName_complete h hfit (.free rfl)
      cases h with
      | @funName a s m _ ha hs hm =>
        simp only [bareExpr, bind_eq_ok, var?_eq_ok]
        refine ⟨none, _, .inr ⟨rfl, rfl, by simp [ha]⟩, ?_⟩
        simp only [bind_eq_ok, get_eq_ok]
        refine ⟨_, _, ⟨rfl, rfl⟩, ?_⟩
        rw [if_pos (by simp [opensFunName, ha, startsWith, hs])]
        simp only [bind_eq_ok]
        exact ⟨_, rest, hname, rfl⟩
    | @lit _ _ _ value h =>
      cases h with
      | @literal t _ _ ht =>
        have hvar : t.kind ≠ .var := ht.kind_ne_var
        have hvalue := ht.literal?_eq (hfit.short t List.mem_cons_self)
        have hslash : startsWith "/" rest = false := hends "/" (by decide)
        simp only [bareExpr, bind_eq_ok, var?_eq_ok]
        refine ⟨none, t :: rest, .inr ⟨rfl, rfl, by simpa using hvar⟩, ?_⟩
        simp only [bind_eq_ok, get_eq_ok]
        refine ⟨_, _, ⟨rfl, rfl⟩, ?_⟩
        rw [if_neg (by simp [opensFunName, hslash])]
        simp only [bind_eq_ok, literal?_eq_ok]
        exact ⟨some value, rest, .inl ⟨t, value, hvalue, rfl, rfl⟩, rfl⟩
    | nil ho hc =>
      rw [bareExpr_of_mem (p := bracketed l.expr (.lit .nil) .list) ho (by simp [exprCases])]
      exact bracketed_nil (s := .expr) hc
    | tuple ho hxs =>
      rw [bareExpr_of_mem (p := .tuple <$> sequence l.expr "\x7d") ho (by simp [exprCases])]
      exact map_sequence_complete (expr_complete hl) (by decide) hxs hfit.down
    | values ho hxs =>
      rw [bareExpr_of_mem (p := .values <$> sequence l.expr ">") ho (by simp [exprCases])]
      exact map_sequence_complete (expr_complete hl) (by decide) hxs hfit.down
    | binary ho hxs =>
      rw [bareExpr_of_mem (p := .binary <$> sequence l.exprSegment "\x7d#") ho
        (by simp [exprCases])]
      exact map_sequence_complete (exprSegment_complete hl) (by decide) hxs hfit.down
    | map ho hbody =>
      rw [bareExpr_of_mem (p := l.mapBody) ho (by simp [exprCases])]
      exact mapBody_complete hl hbody hfit.down
    | letIn hk hvars he hvalue hi hbody =>
      have hfit' := ((hfit.down.after hvars).tail.after hvalue).tail
      rw [bareExpr_of_keyword hk List.mem_cons_self]
      exact bindingThen_complete hl hvars he hvalue hi hfit.down
        (chain_complete hl _ hbody hfit' hends)
    | seq hk hfirst hnext =>
      rw [bareExpr_of_keyword hk (List.mem_cons_of_mem _ List.mem_cons_self)]
      exact stepThen_complete hl hfirst hnext hfit.down
        (chain_complete hl _ hnext (hfit.down.after hfirst) hends)
    | lambda hk ho hparams ha hbody =>
      rw [bareExpr_of_keyword (p := l.lambda) hk (by simp [headCases, keywordCases])]
      exact lambda_complete hl ho hparams ha hbody hfit.down hends
    | letRec hk hds hbody =>
      rw [bareExpr_of_keyword (p := l.letRec) hk (by simp [headCases, keywordCases])]
      exact letRec_complete hl hds hbody hfit.down hends
    | caseOf hk hsubject ho hcs =>
      rw [bareExpr_of_keyword (p := l.caseOf) hk (by simp [headCases, keywordCases])]
      exact caseOf_complete hl hsubject ho hcs hfit.down
    | receive hk hcs htimeout ha haction =>
      rw [bareExpr_of_keyword (p := l.receive) hk (by simp [headCases, keywordCases])]
      exact receive_complete hl hcs htimeout ha haction hfit.down hends
    | apply hk hfunction hargs =>
      rw [bareExpr_of_keyword (p := l.apply) hk (by simp [headCases, keywordCases])]
      exact apply_complete hl hfunction hargs hfit.down
    | call hk hunit hc hfunction hargs =>
      rw [bareExpr_of_keyword (p := l.call) hk (by simp [headCases, keywordCases])]
      exact call_complete hl hunit hc hfunction hargs hfit.down
    | primop hk hname hargs =>
      rw [bareExpr_of_keyword (p := l.primop) hk (by simp [headCases, keywordCases])]
      exact primop_complete hl hname hargs hfit.down
    | tryOf hk hbody ho hvars ha hsuccess hc hhandlerVars ha' hhandler =>
      rw [bareExpr_of_keyword (p := l.tryOf) hk (by simp [headCases, keywordCases])]
      exact tryOf_complete hl hbody ho hvars ha hsuccess hc hhandlerVars ha' hhandler hfit.down hends
    | catching hk hbody =>
      rw [bareExpr_of_keyword (p := .catching <$> l.expr) hk (by simp [headCases, keywordCases])]
      exact map_eq_ok.2 ⟨_, expr_complete hl hbody hfit.down hends, rfl⟩

/-! ## Modules -/

theorem attributePair_complete (hl : l.Complete n) :
    Form.attribute.Complete l.digits n l.attributePair := by
  intro ts x rest h hfit hends
  cases h with
  | @attributePair e _ mid _ key value hkey he hvalue =>
    have hkey' := hl.atom hkey hfit (.free rfl)
    have hvalue' := constant_complete hl hvalue (hfit.after hkey).tail (.free rfl)
    simp only [attributePair, bind_eq_ok, expect_eq_ok]
    exact ⟨key, e :: mid, hkey', (), mid, ⟨e, he, rfl⟩, value, rest, hvalue', rfl⟩

theorem exportedName_complete (hl : l.Complete n) :
    (Form.stripped .funName).Complete l.digits n (do return (← l.funName).node) := by
  intro ts x rest h hfit hends
  cases h with
  | stripped ha =>
    simp only [bind_eq_ok]
    exact ⟨_, rest, hl.funName ha hfit (.free rfl), rfl⟩

theorem bareModule_complete (hl : l.Complete n) : Form.module.Complete l.digits (n + 1) l.bareModule := by
  intro ts x rest h hfit hends
  cases h with
  | @module k m o a o' us mid mid' _ exports attributes ds hk hm ho hexports ha ho' hattributes hds =>
    have hfit₁ := hfit.down.tail.tail
    have hfit₂ := (hfit₁.after hexports).tail.tail
    have hexports' := sequence_complete (exportedName_complete hl) (by decide) hexports hfit₁ (.free rfl)
    have hattributes' := sequence_complete (attributePair_complete hl) (by decide) hattributes hfit₂
      (.free rfl)
    have hds' := definitions_complete hl (by decide) hds (hfit₂.after hattributes) (.free rfl)
    simp only [bareModule, bind_eq_ok, expect_eq_ok, expectKind_eq_ok]
    exact ⟨(), _, ⟨k, hk, rfl⟩, m.text, _, ⟨m, hm, rfl, rfl⟩, (), us, ⟨o, ho, rfl⟩, exports, _, hexports',
      (), _, ⟨a, ha, rfl⟩, (), mid, ⟨o', ho', rfl⟩, attributes, mid', hattributes', ds, rest, hds', rfl⟩

/-! ## Levels -/

theorem expectKind_atom_complete : Form.atom.Complete digits n (expectKind .atom) := by
  intro ts x rest h hfit hends
  cases h with
  | @atom t _ ht => exact expectKind_eq_ok.2 ⟨t, ht, rfl, rfl⟩

theorem expectKind_var_complete : Form.var.Complete digits n (expectKind .var) := by
  intro ts x rest h hfit hends
  cases h with
  | @varName t _ ht => exact expectKind_eq_ok.2 ⟨t, ht, rfl, rfl⟩

/-- A level finds one token more than the level below it. -/
theorem next_complete (hl : l.Complete n) : l.next.Complete (n + 1) where
  const := annotated_complete hl hl.const (bareConst_complete hl) (by decide) (by decide)
  atom := annotated_complete hl hl.atom expectKind_atom_complete (by decide) (by decide)
  var := annotated_complete hl hl.var expectKind_var_complete (by decide) (by decide)
  funName := annotated_complete hl hl.funName bareFunName_complete (by decide) (by decide)
  pattern := annotated_complete hl hl.pattern (barePattern_complete hl) (by decide) (by decide)
  expr := annotated_complete hl hl.expr (bareExpr_complete hl) (by decide) (by decide)
  unit := annotated_complete hl hl.unit (bareModule_complete hl) (by decide) (by decide)

@[simp] theorem digits_ofDepth (digits depth : Nat) : (ofDepth digits depth).digits = digits := by
  induction depth with
  | zero => rfl
  | succ depth ih => exact ih

theorem ofDepth_complete (digits depth : Nat) : (ofDepth digits depth).Complete depth := by
  induction depth with
  | zero =>
    constructor
    all_goals exact fun _ _ _ _ hfit => absurd hfit.length_lt (Nat.not_lt_zero _)
  | succ depth ih => exact next_complete ih

end Level

/-! ## Whole texts -/

section

variable {depth : Nat} (hlength : ts.length < depth) (hshort : ∀ t ∈ ts, t.Short numeralLimit)

include hlength hshort

theorem fits_ofDepth : Fits (Level.ofDepth numeralLimit depth).digits depth ts := by
  rw [Level.digits_ofDepth]
  exact ⟨hlength, hshort⟩

theorem exprOfTokens_complete {e : Ann Expr} (h : Writes (.annotated (.bare .expr)) ts e []) :
    exprOfTokens depth ts = .ok e :=
  Parser.whole_eq_ok.2 ((Level.ofDepth_complete _ _).expr h (fits_ofDepth hlength hshort) .nil)

theorem moduleOfTokens_complete {m : Ann Module} (h : Writes (.annotated .module) ts m []) :
    moduleOfTokens depth ts = .ok m :=
  Parser.whole_eq_ok.2 ((Level.ofDepth_complete _ _).unit h (fits_ofDepth hlength hshort) .nil)

end

/-- Some limit is enough for the integers of all the tokens. -/
theorem exists_short (ts : List Token) : ∃ digits, ∀ t ∈ ts, t.Short digits := by
  induction ts with
  | nil => exact ⟨0, by simp⟩
  | cons t ts ih =>
    obtain ⟨digits, h⟩ := ih
    refine ⟨max digits (Numeral.sign t.text.toList).2.length, ?_⟩
    intro u hu hk
    rcases List.mem_cons.1 hu with rfl | hu
    · exact Nat.le_max_right ..
    · exact Nat.le_trans (h u hu hk) (Nat.le_max_left ..)

/-- A form that a parser finds at the end of the tokens is written in one way only. -/
theorem Writes.unique (f : Form) (p : Nat → Parser f.Tree)
    (hp : ∀ digits, f.Complete digits (ts.length + 1) (p digits)) {x y : f.Tree}
    (hx : Writes f ts x []) (hy : Writes f ts y []) : x = y := by
  obtain ⟨digits, hshort⟩ := exists_short ts
  have hfit : Fits digits (ts.length + 1) ts := ⟨Nat.lt_succ_self _, hshort⟩
  have h := (hp digits hx hfit .nil).symm.trans (hp digits hy hfit .nil)
  cases h
  rfl

/-- What the parsers read is what the grammar writes, if the nesting that is followed exceeds the
number of tokens and the integers are short. Tokens write one tree at most, whatever their
integers. -/
theorem parsed_iff_written :
    (∀ (depth : Nat) (ts : List Token), ts.length < depth → (∀ t ∈ ts, t.Short numeralLimit) →
      (∀ e, exprOfTokens depth ts = .ok e ↔ Writes (.annotated (.bare .expr)) ts e []) ∧
      (∀ m, moduleOfTokens depth ts = .ok m ↔ Writes (.annotated .module) ts m [])) ∧
    (∀ ts e e', Writes (.annotated (.bare .expr)) ts e [] →
      Writes (.annotated (.bare .expr)) ts e' [] → e = e') ∧
    (∀ ts m m', Writes (.annotated .module) ts m [] → Writes (.annotated .module) ts m' [] →
      m = m') := by
  refine ⟨?_, ?_, ?_⟩
  · intro depth ts hlength hshort
    exact ⟨fun e => ⟨exprOfTokens_sound, exprOfTokens_complete hlength hshort⟩,
      fun m => ⟨moduleOfTokens_sound, moduleOfTokens_complete hlength hshort⟩⟩
  · intro ts e e'
    refine Writes.unique (.annotated (.bare .expr))
      (fun digits => (Level.ofDepth digits (ts.length + 1)).expr) ?_
    intro digits
    simpa using (Level.ofDepth_complete digits (ts.length + 1)).expr
  · intro ts m m'
    refine Writes.unique (.annotated .module)
      (fun digits => (Level.ofDepth digits (ts.length + 1)).unit) ?_
    intro digits
    simpa using (Level.ofDepth_complete digits (ts.length + 1)).unit

/-- A name with a slash and an arity after it is read, and written, as a function of the module. -/
theorem parsed_iff_written_funRef :
    let ts : List Token := [⟨.atom, "f", 0⟩, ⟨.punct, "/", 3⟩, ⟨.integer, "2", 4⟩]
    (ts.length < 4 ∧ ∀ t ∈ ts, t.Short numeralLimit) ∧
      exprOfTokens 4 ts = .ok (.plain (.funRef ⟨"f", 2⟩)) ∧
      Writes (.annotated (.bare .expr)) ts (.plain (.funRef ⟨"f", 2⟩)) [] := by
  intro ts
  have hshort : ∀ t ∈ ts, t.Short numeralLimit := by simp [ts, Token.Short, Numeral.sign]; decide
  have h : Writes (.annotated (.bare .expr)) ts (.plain (.funRef ⟨"f", 2⟩)) [] :=
    .plain (.base (.funRef (.funName rfl rfl rfl)))
  exact ⟨⟨by decide, hshort⟩, ((parsed_iff_written.1 4 ts (by decide) hshort).1 _).2 h, h⟩

end CallGraph
