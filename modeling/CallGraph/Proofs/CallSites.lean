import CallGraph.Proofs.DeepTargets
import CallGraph.Proofs.Lexing.Texts
import CallGraph.Proofs.RoundTrip

/-!
The calls that stand anywhere in a tree, those in guards and in patterns too. A text has the keyword
once for each of them, and a report has those that are not hidden in a guard or a pattern.
-/

namespace CallGraph

/-- A call in a tree, with what it goes to. It is hidden if it is below a guard or a pattern. -/
structure Site where
  target : Target
  hidden : Bool

def Site.hide (s : Site) : Site := { s with hidden := true }

mutual

/-- The calls in an expression from left to right, a call after those in its parts. -/
def Expr.sites : Expr → List Site
  | .var _ | .lit _ | .funRef _ => []
  | .lambda _ body => Expr.annSites body
  | .apply function args => Expr.annSites function ++ Expr.listSites args
  | .call unit function args =>
    Expr.annSites unit ++ Expr.annSites function ++ Expr.listSites args ++
      [⟨⟨unit.node, function.node, args.length⟩, false⟩]
  | .primop _ args => Expr.listSites args
  | .seq first next => Expr.annSites first ++ Expr.annSites next
  | .letIn _ value body => Expr.annSites value ++ Expr.annSites body
  | .letRec definitions body => Definition.listSites definitions ++ Expr.annSites body
  | .caseOf subject clauses => Expr.annSites subject ++ Clause.listSites clauses
  | .receive clauses timeout action =>
    Clause.listSites clauses ++ Expr.annSites timeout ++ Expr.annSites action
  | .tryOf body _ success _ handler =>
    Expr.annSites body ++ Expr.annSites success ++ Expr.annSites handler
  | .catching body => Expr.annSites body
  | .tuple elements | .values elements => Expr.listSites elements
  | .list elements tail => Expr.listSites elements ++ Expr.optionSites tail
  | .binary segments => Segment.listSites segments
  | .map pairs base => Expr.optionSites base ++ MapPair.listSites pairs

def Expr.annSites : Ann Expr → List Site
  | ⟨e, _⟩ => e.sites

def Expr.listSites : List (Ann Expr) → List Site
  | [] => []
  | e :: es => Expr.annSites e ++ Expr.listSites es

def Expr.optionSites : Option (Ann Expr) → List Site
  | none => []
  | some e => Expr.annSites e

def Definition.listSites : List (Ann Definition) → List Site
  | [] => []
  | ⟨⟨_, function⟩, _⟩ :: ds => Expr.annSites function ++ Definition.listSites ds

def Clause.listSites : List (Ann Clause) → List Site
  | [] => []
  | ⟨⟨patterns, guard, body⟩, _⟩ :: cs =>
    (Pattern.listSites patterns ++ Expr.annSites guard).map Site.hide ++ Expr.annSites body ++
      Clause.listSites cs

def Segment.listSites : List Segment → List Site
  | [] => []
  | ⟨value, size, unit, type, flags⟩ :: segments =>
    Expr.annSites value ++ Expr.annSites size ++ Expr.annSites unit ++ Expr.annSites type ++
      Expr.annSites flags ++ Segment.listSites segments

def MapPair.listSites : List MapPair → List Site
  | [] => []
  | ⟨key, value, _⟩ :: pairs =>
    Expr.annSites key ++ Expr.annSites value ++ MapPair.listSites pairs

/-- The calls in a pattern, which are in the modifiers of segments and in the keys of maps. -/
def Pattern.sites : Pattern → List Site
  | .var _ | .lit _ => []
  | .tuple elements => Pattern.listSites elements
  | .list elements tail => Pattern.listSites elements ++ Pattern.optionSites tail
  | .binary segments => PatternSegment.listSites segments
  | .map pairs => PatternPair.listSites pairs
  | .alias _ pattern => pattern.sites

def Pattern.listSites : List Pattern → List Site
  | [] => []
  | p :: ps => p.sites ++ Pattern.listSites ps

def Pattern.optionSites : Option Pattern → List Site
  | none => []
  | some p => p.sites

def PatternSegment.listSites : List PatternSegment → List Site
  | [] => []
  | ⟨pattern, size, unit, type, flags⟩ :: segments =>
    pattern.sites ++ Expr.annSites size ++ Expr.annSites unit ++ Expr.annSites type ++
      Expr.annSites flags ++ PatternSegment.listSites segments

def PatternPair.listSites : List PatternPair → List Site
  | [] => []
  | ⟨key, pattern⟩ :: pairs =>
    Expr.annSites key ++ pattern.sites ++ PatternPair.listSites pairs

end

/-- The calls in a module. -/
def Module.sites (m : Module) : List Site := Definition.listSites m.definitions

/-! ## The calls of a report -/

/-- The targets of the calls that are not hidden. -/
def Site.shown (sites : List Site) : List Target := (sites.filter (!·.hidden)).map Site.target

namespace Site

@[simp] theorem shown_singleton (t : Target) : shown [⟨t, false⟩] = [t] := rfl

@[simp] theorem shown_append (as bs : List Site) : shown (as ++ bs) = shown as ++ shown bs := by
  simp [shown]

@[simp] theorem shown_hide (sites : List Site) : shown (sites.map hide) = [] := by
  simp [shown, hide]

theorem mem_shown {sites : List Site} {t : Target} :
    t ∈ shown sites ↔ ∃ s ∈ sites, s.hidden = false ∧ s.target = t := by
  simp [shown, and_assoc]

theorem length_shown (sites : List Site) : (shown sites).length = sites.countP (!·.hidden) := by
  rw [shown, List.length_map, List.countP_eq_length_filter]

end Site

mutual

theorem Expr.shown_sites : (e : Expr) → Site.shown e.sites = e.targets
  | .var _ | .lit _ | .funRef _ => rfl
  | .lambda _ body | .catching body => Expr.shown_annSites body
  | .apply function args => by
    simp [Expr.sites, Expr.targets, Expr.shown_annSites function, Expr.shown_listSites args]
  | .call unit function args => by
    simp [Expr.sites, Expr.targets, Expr.shown_annSites unit, Expr.shown_annSites function,
      Expr.shown_listSites args]
  | .primop _ elements | .tuple elements | .values elements => Expr.shown_listSites elements
  | .seq first next | .letIn _ first next => by
    simp [Expr.sites, Expr.targets, Expr.shown_annSites first, Expr.shown_annSites next]
  | .letRec definitions body => by
    simp [Expr.sites, Expr.targets, Definition.shown_listSites definitions, Expr.shown_annSites body]
  | .caseOf subject clauses => by
    simp [Expr.sites, Expr.targets, Expr.shown_annSites subject, Clause.shown_listSites clauses]
  | .receive clauses timeout action => by
    simp [Expr.sites, Expr.targets, Clause.shown_listSites clauses, Expr.shown_annSites timeout,
      Expr.shown_annSites action]
  | .tryOf body _ success _ handler => by
    simp [Expr.sites, Expr.targets, Expr.shown_annSites body, Expr.shown_annSites success,
      Expr.shown_annSites handler]
  | .list elements tail => by
    simp [Expr.sites, Expr.targets, Expr.shown_listSites elements, Expr.shown_optionSites tail]
  | .binary segments => Segment.shown_listSites segments
  | .map pairs base => by
    simp [Expr.sites, Expr.targets, Expr.shown_optionSites base, MapPair.shown_listSites pairs]

theorem Expr.shown_annSites : (e : Ann Expr) → Site.shown (Expr.annSites e) = Expr.annTargets e
  | ⟨e, _⟩ => e.shown_sites

theorem Expr.shown_listSites : (es : List (Ann Expr)) →
    Site.shown (Expr.listSites es) = Expr.listTargets es
  | [] => rfl
  | e :: es => by
    simp [Expr.listSites, Expr.listTargets, Expr.shown_annSites e, Expr.shown_listSites es]

theorem Expr.shown_optionSites : (e : Option (Ann Expr)) →
    Site.shown (Expr.optionSites e) = Expr.optionTargets e
  | none => rfl
  | some e => Expr.shown_annSites e

theorem Definition.shown_listSites : (ds : List (Ann Definition)) →
    Site.shown (Definition.listSites ds) = Definition.listTargets ds
  | [] => rfl
  | ⟨⟨_, function⟩, _⟩ :: ds => by
    simp [Definition.listSites, Definition.listTargets, Expr.shown_annSites function,
      Definition.shown_listSites ds]

/-- Guards and patterns show nothing. -/
theorem Clause.shown_listSites : (cs : List (Ann Clause)) →
    Site.shown (Clause.listSites cs) = Clause.listTargets cs
  | [] => rfl
  | ⟨⟨_, _, body⟩, _⟩ :: cs => by
    simp only [Clause.listSites, Clause.listTargets, Site.shown_append, Site.shown_hide,
      List.nil_append, Expr.shown_annSites body, Clause.shown_listSites cs]

theorem Segment.shown_listSites : (segments : List Segment) →
    Site.shown (Segment.listSites segments) = Segment.listTargets segments
  | [] => rfl
  | ⟨value, size, unit, type, flags⟩ :: segments => by
    simp [Segment.listSites, Segment.listTargets, Expr.shown_annSites value, Expr.shown_annSites size,
      Expr.shown_annSites unit, Expr.shown_annSites type, Expr.shown_annSites flags,
      Segment.shown_listSites segments]

theorem MapPair.shown_listSites : (pairs : List MapPair) →
    Site.shown (MapPair.listSites pairs) = MapPair.listTargets pairs
  | [] => rfl
  | ⟨key, value, _⟩ :: pairs => by
    simp [MapPair.listSites, MapPair.listTargets, Expr.shown_annSites key, Expr.shown_annSites value,
      MapPair.shown_listSites pairs]

end

/-- The targets of a module are those of the calls that are not hidden, in their order. -/
theorem Module.shown_sites (m : Module) : Site.shown m.sites = m.targets :=
  Definition.shown_listSites m.definitions

/-- The call is not hidden, and its target is neither plain nor described with at most `limit` calls
open at once. -/
def Site.TooDeep (limit : Nat) (s : Site) : Prop :=
  s.hidden = false ∧ s.target.isPlain = false ∧ limit < s.target.outline.depth

theorem Module.not_describable_iff {limit : Nat} {m : Module} :
    ¬ m.Describable limit ↔ ∃ s ∈ m.sites, s.TooDeep limit := by
  rw [Describable, ← m.shown_sites]
  constructor
  · intro h
    obtain ⟨t, ht⟩ := not_forall.1 h
    obtain ⟨hshown, hfits⟩ := Classical.not_imp.1 ht
    obtain ⟨s, hs, hhidden, rfl⟩ := Site.mem_shown.1 hshown
    rw [not_or, Bool.not_eq_true, Nat.not_le] at hfits
    exact ⟨s, hs, hhidden, hfits⟩
  · rintro ⟨s, hs, hhidden, hplain, hdepth⟩ h
    rcases h s.target (Site.mem_shown.2 ⟨s, hs, hhidden, rfl⟩) with h | h
    · rw [hplain] at h
      cases h
    · omega

/-- The report of a module that has one has the calls that are not hidden. -/
theorem Module.length_calls_report {limit : Nat} {m : Module} (h : m.Describable limit) :
    ∃ r, m.report limit = .ok r ∧ r.calls.length = m.sites.countP (!·.hidden) := by
  refine ⟨_, report_of_describable h, ?_⟩
  rw [List.length_map, ← m.shown_sites, Site.length_shown]

theorem Module.report_eq_tooDeep_iff (limit : Nat) (m : Module) :
    m.report limit = .error .tooDeep ↔ ∃ s ∈ m.sites, s.TooDeep limit := by
  rw [← not_describable_iff]
  refine ⟨fun hreport hdescribable => ?_, report_of_not_describable⟩
  rw [report_of_describable hdescribable] at hreport
  cases hreport

/-! ## The keyword in a form -/

/-- The keyword or the punctuation mark that a token is. -/
def Token.symbol? (t : Token) : Option String :=
  if t.kind = .punct ∨ t.kind = .name then some t.text else none

theorem Token.is_iff_symbol? {t : Token} {s : String} : t.is s ↔ t.symbol? = some s := by
  cases hk : t.kind <;> simp [Token.is, Token.symbol?, hk]

theorem Token.isKeyword_iff_symbol? {t : Token} {s : String} :
    t.IsKeyword s ↔ t.kind = .name ∧ t.symbol? = some s := by
  rw [← is_iff_symbol?]
  exact ⟨fun h => ⟨h.kind, h.is⟩, fun h => ⟨h.1, h.2⟩⟩

theorem Token.symbol?_of_atom {t : Token} (h : t.kind = .atom) : t.symbol? = none := by
  simp [Token.symbol?, h]

theorem Token.symbol?_of_var {t : Token} (h : t.kind = .var) : t.symbol? = none := by
  simp [Token.symbol?, h]

theorem Token.symbol?_of_integer {t : Token} (h : t.kind = .integer) : t.symbol? = none := by
  simp [Token.symbol?, h]

theorem Token.Denotes.symbol?_eq_none {t : Token} {l : Literal} (h : t.Denotes l) :
    t.symbol? = none := by
  cases h with
  | atom hk | integer hk | float hk | char hk | string hk => simp [Token.symbol?, hk]

/-- The number of tokens that are the keyword of a call. -/
def keywordCount (ts : List Token) : Nat := ts.countP (·.symbol? = some "call")

theorem keywordCount_cons (t : Token) (ts : List Token) :
    keywordCount (t :: ts) = (if t.symbol? = some "call" then 1 else 0) + keywordCount ts := by
  rw [keywordCount, List.countP_cons, Nat.add_comm]
  simp [keywordCount]

/-- The sum of what is counted in the parts of a row. -/
def total {α : Type} (count : α → Nat) : List α → Nat
  | [] => 0
  | x :: xs => count x + total count xs

theorem total_append {α : Type} (count : α → Nat) (xs ys : List α) :
    total count (xs ++ ys) = total count xs + total count ys := by
  induction xs with
  | nil => exact (Nat.zero_add _).symm
  | cons x xs ih => rw [List.cons_append, total, total, ih, Nat.add_assoc]

theorem total_zero {α : Type} (xs : List α) : total (fun _ => 0) xs = 0 := by
  induction xs with
  | nil => rfl
  | cons x xs ih => rw [total, ih]

namespace Category

/-- The number of calls in a phrase. -/
def callCount : (s : Category) → s.Tree → Nat
  | .const, _ => 0
  | .pattern, p => p.sites.length
  | .expr, e => e.sites.length

def elementCount : (s : Category) → s.Element → Nat
  | .const, _ => 0
  | .pattern, p => p.sites.length
  | .expr, e => (Expr.annSites e).length

end Category

/-- The number of calls in a form. A symbol that closes a row would add one if it were the keyword. -/
def Form.callCount : (f : Form) → f.Tree → Nat
  | .annotated f, a => f.callCount a.node
  | .stripped f, x => f.callCount x
  | .items f, xs => total f.callCount xs
  | .sequence f close, xs | .run f close, xs =>
    total f.callCount xs + if close = "call" then 1 else 0
  | .base s, x | .bare s, x => s.callCount x
  | .element s, x | .tail s, x => s.elementCount x
  | .cells s, c => s.callCount (s.list c.1 c.2)
  | .patterns, ps => (Pattern.listSites ps).length
  | .patternSegment, x => (PatternSegment.listSites [x]).length
  | .patternPair, x => (PatternPair.listSites [x]).length
  | .bareClause, c => (Clause.listSites [.plain c]).length
  | .clause, c => (Clause.listSites [c]).length
  | .definition, d => (Definition.listSites [d]).length
  | .segment, x => (Segment.listSites [x]).length
  | .mapPair, x => (MapPair.listSites [x]).length
  | .mapBody, x => (MapPair.listSites x.1).length + (Expr.optionSites x.2).length
  | .arguments, args => (Expr.listSites args).length
  | .module, m => m.sites.length
  | .closing, _ | .atom, _ | .var, _ | .literal, _ | .funName, _ | .mapOp, _ | .constSegment, _
  | .constPair, _ | .varList, _ | .attribute, _ => 0

/-! The calls in a row are those in its parts. -/

theorem total_length_part {α : Type} {sites : List α → List Site} {part : α → List Site}
    (hnil : sites [] = []) (hcons : ∀ x xs, sites (x :: xs) = part x ++ sites xs) (xs : List α) :
    total (fun x => (part x).length) xs = (sites xs).length := by
  induction xs with
  | nil => rw [hnil]; rfl
  | cons x xs ih => rw [total, ih, hcons, List.length_append]

theorem Expr.total_length_annSites (es : List (Ann Expr)) :
    total (fun e => (Expr.annSites e).length) es = (Expr.listSites es).length :=
  total_length_part rfl (fun _ _ => rfl) es

theorem Pattern.total_length_sites (ps : List Pattern) :
    total (fun p => p.sites.length) ps = (Pattern.listSites ps).length :=
  total_length_part rfl (fun _ _ => rfl) ps

theorem Definition.total_length_listSites (ds : List (Ann Definition)) :
    total (fun d => (Definition.listSites [d]).length) ds = (Definition.listSites ds).length :=
  total_length_part rfl (fun ⟨⟨_, _⟩, _⟩ _ => by simp [Definition.listSites]) ds

theorem Clause.total_length_listSites (cs : List (Ann Clause)) :
    total (fun c => (Clause.listSites [c]).length) cs = (Clause.listSites cs).length :=
  total_length_part rfl (fun ⟨⟨_, _, _⟩, _⟩ _ => by simp [Clause.listSites]) cs

theorem Segment.total_length_listSites (segments : List Segment) :
    total (fun s => (Segment.listSites [s]).length) segments =
      (Segment.listSites segments).length :=
  total_length_part rfl (fun ⟨_, _, _, _, _⟩ _ => by simp [Segment.listSites]) segments

theorem MapPair.total_length_listSites (pairs : List MapPair) :
    total (fun p => (MapPair.listSites [p]).length) pairs = (MapPair.listSites pairs).length :=
  total_length_part rfl (fun ⟨_, _, _⟩ _ => by simp [MapPair.listSites]) pairs

theorem PatternSegment.total_length_listSites (segments : List PatternSegment) :
    total (fun s => (PatternSegment.listSites [s]).length) segments =
      (PatternSegment.listSites segments).length :=
  total_length_part rfl (fun ⟨_, _, _, _, _⟩ _ => by simp [PatternSegment.listSites]) segments

theorem PatternPair.total_length_listSites (pairs : List PatternPair) :
    total (fun p => (PatternPair.listSites [p]).length) pairs =
      (PatternPair.listSites pairs).length :=
  total_length_part rfl (fun ⟨_, _⟩ _ => by simp [PatternPair.listSites]) pairs

theorem Clause.listSites_singleton (c : Clause) (annotations : List Const) :
    Clause.listSites [⟨c, annotations⟩] =
      (Pattern.listSites c.patterns ++ Expr.annSites c.guard).map Site.hide ++
        Expr.annSites c.body := by
  obtain ⟨patterns, guard, body⟩ := c
  rw [Clause.listSites, Clause.listSites, List.append_nil]

namespace Category

theorem callCount_const (c : Const) : callCount .const c = 0 := rfl

theorem callCount_pattern (p : Pattern) : callCount .pattern p = p.sites.length := rfl

theorem callCount_expr (e : Expr) : callCount .expr e = e.sites.length := rfl

theorem elementCount_const (c : Const) : elementCount .const c = 0 := rfl

theorem elementCount_pattern (p : Pattern) : elementCount .pattern p = p.sites.length := rfl

theorem elementCount_expr (e : Ann Expr) : elementCount .expr e = (Expr.annSites e).length := rfl

variable (s : Category)

theorem elementCount_keep (a : Ann s.Tree) : s.elementCount (s.keep a) = s.callCount a.node := by
  obtain ⟨node, annotations⟩ := a
  cases s <;> rfl

theorem callCount_lit (l : Literal) : s.callCount (s.lit l) = 0 := by
  cases s <;> rfl

theorem callCount_tuple (xs : List s.Element) :
    s.callCount (s.tuple xs) = (Form.items (.element s)).callCount xs := by
  cases s with
  | const => exact (total_zero xs).symm
  | pattern => exact (Pattern.total_length_sites xs).symm
  | expr => exact (Expr.total_length_annSites xs).symm

theorem callCount_list (xs : List s.Element) (tail : Option s.Element) :
    s.callCount (s.list xs tail) =
      (Form.items (.element s)).callCount xs + (tail.map s.elementCount).getD 0 := by
  rw [← callCount_tuple]
  cases s with
  | const => cases tail <;> rfl
  | pattern | expr => cases tail <;> exact List.length_append

end Category

/-- What is written has the keyword once for each call. -/
theorem Writes.keywordCount_eq {f : Form} {ts rest : List Token} {x : f.Tree}
    (h : Writes f ts x rest) : keywordCount ts = f.callCount x + keywordCount rest := by
  induction h
  case literal hl => rw [keywordCount_cons, hl.symbol?_eq_none]; rfl
  -- The calls of a tree are those of its parts, and one more for a call.
  all_goals simp only [Form.callCount, Category.callCount_const, Category.callCount_pattern,
    Category.callCount_expr, Category.elementCount_const, Category.elementCount_pattern,
    Category.elementCount_expr, Category.elementCount_keep, Category.callCount_lit,
    Category.callCount_tuple, Category.callCount_list, Expr.total_length_annSites,
    Pattern.total_length_sites, Definition.total_length_listSites, Clause.total_length_listSites,
    Segment.total_length_listSites, MapPair.total_length_listSites,
    PatternSegment.total_length_listSites, PatternPair.total_length_listSites,
    Clause.listSites_singleton, Ann.plain, Module.sites, Expr.sites, Expr.optionSites,
    Definition.listSites, Segment.listSites, MapPair.listSites, Pattern.sites, Pattern.listSites,
    PatternSegment.listSites, PatternPair.listSites, List.length_append, List.length_map,
    List.length_cons, List.length_nil, List.append_nil, total, total_append, total_zero,
    Option.map_none, Option.map_some, Option.getD_none, Option.getD_some, Token.is_iff_symbol?,
    Token.isKeyword_iff_symbol?] at *
  -- The tokens are the symbols of the production and the tokens of the parts.
  all_goals simp only [keywordCount_cons, Token.symbol?_of_atom, Token.symbol?_of_var,
    Token.symbol?_of_integer, Option.some.injEq, String.reduceEq, reduceCtorEq, reduceIte, *]
  all_goals omega

/-! ## The keyword in a text -/

namespace Lexeme

variable {cs l rest : List Char}

/-- A punctuation mark has at most two characters. -/
theorem length_le_of_punct (h : first? cs = some (⟨some .punct, l⟩, rest)) : l.length ≤ 2 := by
  have hpunct : Scanner.punct cs = some (l, rest) := ofKind_of_first? h
  unfold Scanner.punct at hpunct
  grind

end Lexeme

namespace TokenStream

/-- A symbol of more than two characters is a keyword, as punctuation marks are shorter. -/
theorem symbol?_eq_some_iff {cs : List Char} {offset : Nat} {ts : List Token}
    (h : Scans offset cs ts) {t : Token} (ht : t ∈ ts) {s : String}
    (hs : 2 < s.toList.length) : t.symbol? = some s ↔ t.word = .keyword s := by
  obtain ⟨cs', spelling, rest, hfirst, hmeaning, -⟩ := h.exists_lexeme ht
  obtain ⟨kind, text, start⟩ := t
  cases kind with
  | punct =>
    have hlength := Lexeme.length_le_of_punct hfirst
    have htext : String.ofList spelling = text := Except.ok.inj hmeaning
    have hne : text ≠ s := by
      rintro rfl
      rw [← htext, String.toList_ofList] at hs
      omega
    simp [Token.symbol?, Token.word, Word.keyword, hne]
  | name | atom | string | char | float | integer | var =>
    simp [Token.symbol?, Token.word, Word.keyword]

theorem keywordCount_eq_count {file : Option String} {text : String} {stream : TokenStream}
    (h : tokensOfText file text = .ok stream) :
    keywordCount stream.tokens = (stream.tokens.map Token.word).count (.keyword "call") := by
  have hscans := (tokensOfText_eq_ok.1 h).1
  rw [keywordCount, List.count_eq_countP, List.countP_map]
  refine List.countP_congr fun t ht => ?_
  rw [decide_eq_true_iff, symbol?_eq_some_iff hscans ht (by decide), Function.comp_apply, beq_iff_eq]

end TokenStream

/-- A text that is read as a module has the keyword once for each call in the module. The report of
the module has each call that is not hidden once, and if none is hidden, it has as many calls as the
text has keywords. There is no report just if a call that is not hidden has too deep a target. -/
theorem Module.count_call_ofText {file : Option String} {text : String} {m : Ann Module}
    (h : Module.ofText file text = .ok m) (limit : Nat) :
    ∃ stream, tokensOfText file text = .ok stream ∧
      (stream.tokens.map Token.word).count (.keyword "call") = m.node.sites.length ∧
      (m.node.report limit = .error .tooDeep ↔ ∃ s ∈ m.node.sites, s.TooDeep limit) ∧
      ((∀ s ∈ m.node.sites, ¬ s.TooDeep limit) →
        ∃ r, m.node.report limit = .ok r ∧
          r.calls.length = m.node.sites.countP (!·.hidden) ∧
          ((∀ s ∈ m.node.sites, s.hidden = false) →
            r.calls.length = (stream.tokens.map Token.word).count (.keyword "call"))) := by
  obtain ⟨stream, hstream, hparse⟩ := readText_eq_ok.1 h
  have hkeyword : keywordCount stream.tokens = m.node.sites.length + 0 :=
    (moduleOfTokens_sound hparse).keywordCount_eq
  rw [TokenStream.keywordCount_eq_count hstream, Nat.add_zero] at hkeyword
  refine ⟨stream, hstream, hkeyword, m.node.report_eq_tooDeep_iff limit, fun hdeep => ?_⟩
  have hdescribable : m.node.Describable limit := by
    by_contra hnot
    obtain ⟨s, hs, htooDeep⟩ := not_describable_iff.1 hnot
    exact hdeep s hs htooDeep
  obtain ⟨r, hr, hcalls⟩ := length_calls_report hdescribable
  refine ⟨r, hr, hcalls, fun hopen => ?_⟩
  rw [hcalls, hkeyword, List.countP_eq_length]
  intro s hs
  rw [hopen s hs]
  rfl

/-- A guard hides a call from the report, and without it the text has the keyword once less. -/
theorem Module.count_call_ofText_guard :
    let call : Ann Expr := ⟨.call ⟨.lit (.atom "m"), []⟩ ⟨.lit (.atom "f"), []⟩ [], []⟩
    let unit (guard : Ann Expr) : Ann Module :=
      ⟨⟨"m", [], [], [⟨⟨⟨"f", 1⟩, ⟨.lambda ["X"] ⟨.caseOf ⟨.var "X", []⟩
        [⟨⟨[.var "Y"], guard, call⟩, []⟩], []⟩, []⟩⟩, []⟩]⟩, []⟩
    let guarded := unit call
    let plain := unit ⟨.lit (.atom "true"), []⟩
    (Module.ofText none (Module.print guarded) = .ok guarded ∧
      ∃ stream, tokensOfText none (Module.print guarded) = .ok stream ∧
        (stream.tokens.map Token.word).count (.keyword "call") = 2 ∧
        ∃ r, guarded.node.report stackLimit = .ok r ∧ r.calls.length = 1) ∧
    (Module.ofText none (Module.print plain) = .ok plain ∧
      ∃ stream, tokensOfText none (Module.print plain) = .ok stream ∧
        ∃ r, plain.node.report stackLimit = .ok r ∧
          r.calls.length = (stream.tokens.map Token.word).count (.keyword "call")) := by
  intro call unit guarded plain
  have hcall : Expr.AnnWellFormed call := by
    simp [call, Expr.AnnWellFormed, Expr.WellFormed, Expr.AllWellFormed, Literal.WellFormed,
      Const.AllWellFormed]
  have hunit (guard : Ann Expr) (h : Expr.AnnWellFormed guard) :
      Module.AnnWellFormed (unit guard) := by
    have harity : Numeral.Short 1 := by decide
    have hX : IsVariable "X" := by decide
    have hY : IsVariable "Y" := by decide
    simpa [unit, Module.AnnWellFormed, Module.WellFormed, FunName.WellFormed,
      Definition.AllWellFormed, Clause.AllWellFormed, Pattern.AllWellFormed, Pattern.WellFormed,
      Expr.IsFunction, Expr.AnnWellFormed, Expr.WellFormed, Const.AllWellFormed, harity, hX, hY]
      using And.intro h hcall
  have hreadGuarded : Module.ofText none (Module.print guarded) = .ok guarded :=
    Module.readText_of_wellFormed (hunit call hcall) (by decide) none
  have htrue : Expr.AnnWellFormed ⟨.lit (.atom "true"), []⟩ := ⟨trivial, trivial⟩
  have hreadPlain : Module.ofText none (Module.print plain) = .ok plain :=
    Module.readText_of_wellFormed (hunit _ htrue) (by decide) none
  -- All the targets are plain.
  have hguarded : ∀ s ∈ guarded.node.sites, s.target.isPlain = true := by decide
  have hplain : ∀ s ∈ plain.node.sites, s.target.isPlain = true ∧ s.hidden = false := by decide
  refine ⟨⟨hreadGuarded, ?_⟩, hreadPlain, ?_⟩
  · obtain ⟨stream, hstream, hkeyword, -, hreport⟩ :=
      Module.count_call_ofText hreadGuarded stackLimit
    obtain ⟨r, hr, hcalls, -⟩ := hreport fun s hs hdeep => by
      rw [Site.TooDeep, hguarded s hs] at hdeep
      cases hdeep.2.1
    exact ⟨stream, hstream, hkeyword, r, hr, hcalls⟩
  · obtain ⟨stream, hstream, -, -, hreport⟩ := Module.count_call_ofText hreadPlain stackLimit
    obtain ⟨r, hr, -, hcalls⟩ := hreport fun s hs hdeep => by
      rw [Site.TooDeep, (hplain s hs).1] at hdeep
      cases hdeep.2.1
    exact ⟨stream, hstream, r, hr, hcalls fun s hs => (hplain s hs).2⟩

/-- A text with one call that is not hidden is read, and there is no report. -/
theorem Module.count_call_letChain :
    Module.ofText none (LetChain.text 1000) = .ok (.plain (LetChain.unit 1000)) ∧
      (LetChain.unit 1000).sites.countP (!·.hidden) = 1 ∧
      (LetChain.unit 1000).report stackLimit = .error .tooDeep := by
  refine ⟨LetChain.ofText_text 1000 none, ?_, LetChain.report_unit (by decide) (by decide)⟩
  rw [← Site.length_shown, shown_sites, LetChain.targets_unit, Expr.targets_callToChain]
  rfl

end CallGraph
