import CallGraph.Core.Diagnostic
import CallGraph.Proofs.Parsing.Basic
import CallGraph.Proofs.Renaming

/-!
The parsers look at the kinds of tokens, and at the values of keywords, marks and numerals only. On
tokens with other names and in other places they do what they do on the tokens, and give the same
tree with other names, or fail at the same token. There is one rule for each way to make a parser
from others, and each production of the grammar follows these rules.
-/

namespace CallGraph

/-- A renaming that also moves tokens to other places. -/
structure Moving extends Renaming where
  place : Nat → Nat

/-- Each token stays in its place. -/
instance : Coe Renaming Moving := ⟨fun r => ⟨r, id⟩⟩

namespace Moving

variable (r : Moving)

/-! ## Tokens -/

def token (t : Token) : Token := { r.toRenaming.token t with offset := r.place t.offset }

theorem is_token (t : Token) (s : String) : (r.token t).is s = t.is s := by
  obtain ⟨kind, text, offset⟩ := t
  cases kind <;> rfl

theorem literal?_token (limit : Nat) (t : Token) :
    (r.token t).literal? limit = (t.literal? limit).map (Except.map r.literal) := by
  obtain ⟨kind, text, offset⟩ := t
  cases kind with
  | integer =>
    change some ((Numeral.integer limit text).map Literal.integer) =
      some (((Numeral.integer limit text).map Literal.integer).map r.literal)
    cases Numeral.integer limit text <;> rfl
  | atom | string | char | float | var | name | punct => rfl

theorem startsWith_map (s : String) (ts : List Token) :
    Parser.startsWith s (ts.map r.token) = Parser.startsWith s ts := by
  cases ts with
  | nil => rfl
  | cons t ts => exact r.is_token t s

theorem opensCells_map (ts : List Token) :
    Parser.opensCells (ts.map r.token) = Parser.opensCells ts := by
  cases ts with
  | nil => rfl
  | cons t ts => rw [List.map_cons, Parser.opensCells, Parser.opensCells, is_token, startsWith_map]

theorem startsWithName_map (ts : List Token) :
    Parser.startsWithName (ts.map r.token) = Parser.startsWithName ts := by
  cases ts <;> rfl

theorem opensChain_map (ts : List Token) :
    Level.opensChain (ts.map r.token) = Level.opensChain ts := by
  simp only [Level.opensChain, startsWithName_map, startsWith_map]

theorem opensFunName_map (ts : List Token) :
    Level.opensFunName (ts.map r.token) = Level.opensFunName ts := by
  cases ts with
  | nil => rfl
  | cons t ts => rw [List.map_cons, Level.opensFunName, Level.opensFunName, startsWith_map]; rfl

theorem find?_token {α : Type} (cases : List (String × α)) (t : Token) :
    cases.find? ((r.token t).is ·.1) = cases.find? (t.is ·.1) := by
  simp only [is_token]

end Moving

/-! ## Failures -/

namespace Renaming

variable (r : Renaming)

def expectation : Expectation → Expectation
  | .function name => .function (r.funName name)
  | wanted => wanted

def failure : ParseFailure → ParseFailure
  | .unexpected wanted found => .unexpected (r.expectation wanted) (found.map r.token)
  | .tooDeep => .tooDeep
  | .conversion e => .conversion e

end Renaming

namespace Moving

variable (r : Moving)

def failure : ParseFailure → ParseFailure
  | .unexpected wanted found => .unexpected (r.expectation wanted) (found.map r.token)
  | .tooDeep => .tooDeep
  | .conversion e => .conversion e

/-- What a parser gives, given what becomes of its values. -/
def result {α β : Type} (f : α → β) :
    Except ParseFailure (α × List Token) → Except ParseFailure (β × List Token)
  | .ok (x, rest) => .ok (f x, rest.map r.token)
  | .error e => .error (r.failure e)

end Moving

namespace Parser

variable {α β α' β' : Type} {r : Moving} {s : String}

/-- On tokens with other names, in other places, `q` does what `p` does on the tokens. What it reads
is changed by `f`. -/
def Renames (r : Moving) (f : α → β) (p : Parser α) (q : Parser β) : Prop :=
  ∀ ts, q (ts.map r.token) = r.result f (p ts)

namespace Renames

variable {f : α → β} {p p' : Parser α} {q q' : Parser β}

theorem pure {x : α} {y : β} (h : f x = y) :
    Renames r f (Pure.pure x : Parser α) (Pure.pure y) := by
  intro ts
  rw [← h]
  rfl

theorem bind {g : α' → β'} {k : α → Parser α'} {k' : β → Parser β'} (hp : Renames r f p q)
    (hk : ∀ x, Renames r g (k x) (k' (f x))) : Renames r g (p >>= k) (q >>= k') := by
  intro ts
  change Except.bind (q (ts.map r.token)) (fun y => k' y.1 y.2) =
    r.result g (Except.bind (p ts) fun y => k y.1 y.2)
  rw [hp ts]
  rcases p ts with e | ⟨x, rest⟩
  · rfl
  · exact hk x rest

theorem map {g : α → α'} {g' : β → β'} {f' : α' → β'} (hp : Renames r f p q)
    (h : ∀ x, f' (g x) = g' (f x)) : Renames r f' (g <$> p) (g' <$> q) := by
  rw [map_eq_pure_bind, map_eq_pure_bind]
  exact hp.bind fun x => pure (h x)

theorem fail {wanted wanted' : Expectation} (h : r.expectation wanted = wanted') :
    Renames r f (Parser.fail wanted) (Parser.fail wanted') := by
  intro ts
  subst h
  cases ts <;> rfl

theorem tooDeep : Renames r f Parser.tooDeep Parser.tooDeep := fun _ => rfl

theorem converted (c : Except ConversionError α) :
    Renames r id (Parser.converted c) (Parser.converted c) := by
  intro ts
  cases c <;> rfl

theorem remaining : Renames r id Parser.remaining Parser.remaining := by
  intro ts
  change Except.ok ((ts.map r.token).length, _) = Except.ok (ts.length, _)
  rw [List.length_map]

theorem get : Renames r (List.map r.token) (MonadState.get : Parser (List Token))
    MonadState.get := fun _ => rfl

theorem set (ts : List Token) :
    Renames r id (MonadState.set ts : Parser PUnit) (MonadState.set (ts.map r.token)) :=
  fun _ => rfl

theorem ahead (s : String) : Renames r id (Parser.ahead s) (Parser.ahead s) := by
  intro ts
  change Except.ok (startsWith s (ts.map r.token), _) = Except.ok (startsWith s ts, _)
  rw [r.startsWith_map]

theorem ite {b : Bool} (hp : Renames r f p q) (hp' : Renames r f p' q') :
    Renames r f (if b then p else p') (if b then q else q') := by
  cases b
  · exact hp'
  · exact hp

/-- A way that is chosen by a look at the tokens, at which names do not matter. -/
theorem peek {g : List Token → Bool} (hg : ∀ ts, g (ts.map r.token) = g ts)
    (hp : Renames r f p q) (hp' : Renames r f p' q') :
    Renames r f (do if g (← MonadState.get) then p else p')
      (do if g (← MonadState.get) then q else q') := by
  refine get.bind fun ts => ?_
  rw [hg]
  exact ite hp hp'

theorem onSymbol {cases : List (String × Parser α)} {f : α → α} {p q : Parser α}
    (hcases : ∀ c ∈ cases, Renames r f c.2 c.2) (hp : Renames r f p q) :
    Renames r f (Parser.onSymbol cases p) (Parser.onSymbol cases q) := by
  intro ts
  cases ts with
  | nil => exact hp []
  | cons t ts =>
    rw [List.map_cons, Parser.onSymbol, Parser.onSymbol, r.find?_token]
    split
    case h_1 hfind => exact hcases _ (List.mem_of_find?_eq_some hfind) ts
    case h_2 => exact hp (t :: ts)

theorem onKeyword {cases : List (String × Parser α)} {f : α → α} {p q : Parser α}
    (hcases : ∀ c ∈ cases, Renames r f c.2 c.2) (hp : Renames r f p q) :
    Renames r f (Parser.onKeyword cases p) (Parser.onKeyword cases q) :=
  peek r.startsWithName_map (onSymbol hcases hp) hp

theorem onSymbol_one (hp : Renames r f p q) (hp' : Renames r f p' q') :
    Renames r f (Parser.onSymbol [(s, p)] p') (Parser.onSymbol [(s, q)] q') := by
  intro ts
  cases ts with
  | nil => exact hp' []
  | cons t ts =>
    rw [List.map_cons, Parser.onSymbol, Parser.onSymbol, r.find?_token, List.find?_singleton,
      List.find?_singleton]
    cases t.is s
    · exact hp' (t :: ts)
    · exact hp ts

theorem accept (s : String) : Renames r id (Parser.accept s) (Parser.accept s) :=
  onSymbol_one (pure rfl) (pure rfl)

theorem expect (s : String) : Renames r id (Parser.expect s) (Parser.expect s) :=
  onSymbol_one (pure rfl) (fail rfl)

theorem expectKind (k : Kind) :
    Renames r (r.value k) (Parser.expectKind k) (Parser.expectKind k) := by
  intro ts
  cases ts with
  | nil => rfl
  | cons t ts =>
    rw [List.map_cons, Parser.expectKind, Parser.expectKind]
    by_cases hk : t.kind = k
    · subst hk
      rw [if_pos rfl]
      exact if_pos rfl
    · rw [if_neg hk]
      exact if_neg hk

theorem literal? (limit : Nat) :
    Renames r (Option.map r.literal) (Parser.literal? limit) (Parser.literal? limit) := by
  intro ts
  cases ts with
  | nil => rfl
  | cons t ts =>
    rw [List.map_cons, Parser.literal?, Parser.literal?, r.literal?_token]
    rcases t.literal? limit with _ | _ | l <;> rfl

theorem var? : Renames r (Option.map r.var) Parser.var? Parser.var? := by
  intro ts
  cases ts with
  | nil => rfl
  | cons t ts =>
    rw [List.map_cons, Parser.var?, Parser.var?]
    obtain ⟨kind, text, offset⟩ := t
    cases kind <;> rfl

/-! ## Loops -/

theorem commaItems (hp : Renames r f p q) (n : Nat) :
    Renames r (List.map f) (Parser.commaItems p n) (Parser.commaItems q n) := by
  induction n with
  | zero => exact pure rfl
  | succ n ih =>
    exact onSymbol_one (hp.bind fun x => ih.bind fun xs => pure rfl) (pure rfl)

theorem items (hp : Renames r f p q) : Renames r (List.map f) (Parser.items p) (Parser.items q) :=
  hp.bind fun _ => remaining.bind fun n => (hp.commaItems n).bind fun _ => pure rfl

theorem sequence (hp : Renames r f p q) (close : String) :
    Renames r (List.map f) (Parser.sequence p close) (Parser.sequence q close) :=
  onSymbol_one (pure rfl) (hp.items.bind fun _ => (expect close).bind fun _ => pure rfl)

theorem itemsBefore (hp : Renames r f p q) (stop : String) (n : Nat) :
    Renames r (List.map f) (Parser.itemsBefore p stop n) (Parser.itemsBefore q stop n) := by
  induction n with
  | zero => exact (ahead stop).bind fun _ => ite (pure rfl) (hp.bind fun _ => pure rfl)
  | succ n ih =>
    exact (ahead stop).bind fun _ =>
      ite (pure rfl) (hp.bind fun _ => ih.bind fun _ => pure rfl)

theorem cells (hp : Renames r f p q) (n : Nat) :
    Renames r (Prod.map (List.map f) (Option.map f)) (Parser.cells p n) (Parser.cells q n) := by
  induction n with
  | zero => exact hp.items.bind fun _ => (expect "]").bind fun _ => pure rfl
  | succ n ih =>
    refine hp.items.bind fun xs => (accept "|").bind fun _ => ite (peek r.opensCells_map ?_ ?_)
      ((expect "]").bind fun _ => pure rfl)
    · refine (expect "[").bind fun _ => ih.bind fun rest => (expect "]").bind fun _ => pure ?_
      simp
    · exact hp.bind fun _ => (expect "]").bind fun _ => pure rfl

end Renames

end Parser

open CallGraph.Parser

/-- The parsers of a level do on tokens with other names what they do on the tokens. -/
structure Level.Natural (r : Moving) (l : Level) : Prop where
  const : Renames r (r.ann r.const) l.const l.const
  atom : Renames r (r.ann r.atom) l.atom l.atom
  var : Renames r (r.ann r.var) l.var l.var
  funName : Renames r (r.ann r.funName) l.funName l.funName
  pattern : Renames r (r.ann r.pattern) l.pattern l.pattern
  expr : Renames r (r.ann r.expr) l.expr l.expr
  unit : Renames r (r.ann r.unit) l.unit l.unit

namespace Level.Natural

variable {α β γ : Type} {r : Moving} {l : Level} (hl : l.Natural r)

/-! ## Constants -/

theorem segment {value : Parser α} {modifier : Parser β} {f : α → α} {g : β → β}
    (hvalue : Renames r f value value) (hmodifier : Renames r g modifier modifier) :
    Renames r (Prod.map f (List.map g)) (Level.segment value modifier)
      (Level.segment value modifier) :=
  (Renames.expect "#<").bind fun _ => hvalue.bind fun _ => (Renames.expect ">").bind fun _ =>
    (Renames.expect "(").bind fun _ => (hmodifier.sequence ")").bind fun _ => .pure rfl

theorem fullSegment {value : Parser α} {modifier : Parser β} {make : α → β → β → β → β → γ}
    {f : α → α} {g : β → β} {h : γ → γ} (hvalue : Renames r f value value)
    (hmodifier : Renames r g modifier modifier)
    (hmake : ∀ x a b c d, h (make x a b c d) = make (f x) (g a) (g b) (g c) (g d)) :
    Renames r h (Level.fullSegment value modifier make)
      (Level.fullSegment value modifier make) := by
  refine (segment hvalue hmodifier).bind fun s => ?_
  obtain ⟨x, modifiers⟩ := s
  -- Names do not change how many modifiers there are.
  match modifiers with
  | [a, b, c, d] => exact .pure (hmake x a b c d)
  | [] | [_] | [_, _] | [_, _, _] | _ :: _ :: _ :: _ :: _ :: _ => exact .fail rfl

theorem mapOp : Renames r id Level.mapOp Level.mapOp := by
  refine .onSymbol ?_ (.fail rfl)
  simpa using ⟨.pure rfl, .pure rfl⟩

theorem bracketed {item : Parser α} {f : α → α} {nil : β} {list : List α → Option α → β}
    {g : β → β} (hitem : Renames r f item item) (hnil : g nil = nil)
    (hlist : ∀ xs tail, g (list xs tail) = list (xs.map f) (tail.map f)) :
    Renames r g (Level.bracketed item nil list) (Level.bracketed item nil list) := by
  rw [Level.bracketed_eq]
  exact .onSymbol_one (.pure hnil) (Renames.remaining.bind fun n => (hitem.cells n).bind fun c =>
    .pure (hlist c.1 c.2))

theorem bareFunName (l : Level) : Renames r r.funName l.bareFunName l.bareFunName :=
  (Renames.expectKind .atom).bind fun _ => (Renames.expect "/").bind fun _ =>
    (Renames.expectKind .integer).bind fun _ => (Renames.converted _).bind fun _ => .pure rfl

include hl

theorem constant : Renames r r.const l.constant l.constant := hl.const.bind fun _ => .pure rfl

theorem annotations : Renames r (List.map r.const) l.annotations l.annotations :=
  .onSymbol_one ((Renames.expect "[").bind fun _ => hl.constant.sequence "]") (.pure rfl)

theorem closing : Renames r (List.map r.const) l.closing l.closing :=
  hl.annotations.bind fun _ => (Renames.expect ")").bind fun _ => .pure rfl

theorem annotated {inner : Parser (Ann α)} {bare : Parser α} {f : α → α}
    (hinner : Renames r (r.ann f) inner inner) (hbare : Renames r f bare bare) :
    Renames r (r.ann f) (l.annotated inner bare) (l.annotated inner bare) := by
  refine .onSymbol_one (hinner.bind fun x => hl.closing.bind fun more => .pure ?_)
    (hbare.map fun x => rfl)
  simp [Transform.ann]

theorem constSegment : Renames r (List.map r.const) l.constSegment l.constSegment :=
  (segment hl.constant hl.constant).bind fun _ => .pure rfl

theorem constPair : Renames r (Prod.map r.const r.const) l.constPair l.constPair :=
  hl.constant.bind fun _ => mapOp.bind fun _ => hl.constant.bind fun _ => .pure rfl

theorem bareConst : Renames r r.const l.bareConst l.bareConst := by
  refine (Renames.literal? l.digits).bind fun value => ?_
  cases value with
  | some value => exact .pure rfl
  | none =>
    refine .onSymbol ?_ (.fail rfl)
    simp only [constCases, List.forall_mem_cons]
    exact ⟨(hl.constant.sequence _).map fun _ => by simp [Transform.const],
      bracketed hl.constant rfl fun _ _ => by simp [Transform.const],
      (hl.constSegment.sequence _).map fun _ => by simp [Transform.const],
      (hl.constPair.sequence _).map fun _ => by simp [Transform.const], List.forall_mem_nil _⟩

/-! ## Names, variables and patterns -/

theorem variableName : Renames r r.var l.variableName l.variableName :=
  hl.var.bind fun _ => .pure rfl

theorem varList : Renames r (List.map r.var) l.varList l.varList :=
  .onSymbol_one (hl.variableName.sequence ">") (hl.variableName.bind fun _ => .pure rfl)

theorem plainPattern : Renames r r.pattern l.plainPattern l.plainPattern :=
  hl.pattern.bind fun _ => .pure rfl

theorem patterns : Renames r (List.map r.pattern) l.patterns l.patterns :=
  .onSymbol_one (hl.plainPattern.sequence ">") (hl.plainPattern.bind fun _ => .pure rfl)

theorem patternSegment : Renames r r.patternSegment l.patternSegment l.patternSegment :=
  fullSegment hl.plainPattern hl.expr fun _ _ _ _ _ => by simp [Transform.patternSegment]

theorem patternPair : Renames r r.patternPair l.patternPair l.patternPair :=
  hl.expr.bind fun _ => (Renames.expect ":=").bind fun _ => hl.plainPattern.bind fun _ =>
    .pure (by simp [Transform.patternPair])

theorem barePattern : Renames r r.pattern l.barePattern l.barePattern := by
  refine Renames.var?.bind fun name => ?_
  cases name with
  | some name => exact .onSymbol_one (hl.plainPattern.map fun _ => rfl) (.pure rfl)
  | none =>
    refine (Renames.literal? l.digits).bind fun value => ?_
    cases value with
    | some value => exact .pure rfl
    | none =>
      refine .onSymbol ?_ (.fail rfl)
      simp only [patternCases, List.forall_mem_cons]
      exact ⟨bracketed hl.plainPattern rfl fun _ _ => by simp [Transform.pattern],
        (hl.plainPattern.sequence _).map fun _ => by simp [Transform.pattern],
        (hl.patternSegment.sequence _).map fun _ => by simp [Transform.pattern],
        (hl.patternPair.sequence _).map fun _ => by simp [Transform.pattern], List.forall_mem_nil _⟩

/-! ## Clauses and definitions -/

theorem clauseRest (ps : List Pattern) :
    Renames r r.clause (l.clauseRest ps) (l.clauseRest (ps.map r.pattern)) :=
  (Renames.expect "when").bind fun _ => hl.expr.bind fun _ => (Renames.expect "->").bind fun _ =>
    hl.expr.bind fun _ => .pure (by simp [Transform.clause])

/-- A clause that is read again after a look at its patterns is read again with the other names. -/
theorem clause : Renames r (r.ann r.clause) l.clause l.clause := by
  have hplain : Renames r (r.ann r.clause)
      (do return .plain (← l.clauseRest (← l.patterns)))
      (do return .plain (← l.clauseRest (← l.patterns))) :=
    hl.patterns.bind fun ps => (hl.clauseRest ps).bind fun _ => .pure rfl
  refine Renames.get.bind fun start => (Renames.accept "(").bind fun _ => .ite ?_ hplain
  refine hl.patterns.bind fun ps => (Renames.ahead "when").bind fun _ => .ite ?_ ?_
  · exact (hl.clauseRest ps).bind fun _ => hl.closing.bind fun _ =>
      .pure (by simp [Transform.ann])
  · exact (Renames.set start).bind fun _ => hplain

theorem clauses (stop : String) :
    Renames r (List.map (r.ann r.clause)) (l.clauses stop) (l.clauses stop) :=
  Renames.remaining.bind fun n => (hl.clause.itemsBefore stop n).bind fun _ =>
    (Renames.expect stop).bind fun _ => .pure rfl

theorem definition : Renames r (r.ann r.definition) l.definition l.definition := by
  refine hl.funName.bind fun name => (Renames.expect "=").bind fun _ => hl.expr.bind fun e => ?_
  obtain ⟨node, annotations⟩ := e
  cases node with
  | lambda => exact .pure (by simp [Transform.ann, Transform.definition])
  | _ => exact .fail rfl

theorem definitions (stop : String) :
    Renames r (List.map (r.ann r.definition)) (l.definitions stop) (l.definitions stop) :=
  Renames.remaining.bind fun n => (hl.definition.itemsBefore stop n).bind fun _ =>
    (Renames.expect stop).bind fun _ => .pure rfl

/-! ## Expressions -/

theorem exprSegment : Renames r r.segment l.exprSegment l.exprSegment :=
  fullSegment hl.expr hl.expr fun _ _ _ _ _ => by simp [Transform.segment]

theorem mapPair : Renames r r.mapPair l.mapPair l.mapPair :=
  hl.expr.bind fun _ => mapOp.bind fun _ => hl.expr.bind fun _ =>
    .pure (by simp [Transform.mapPair])

theorem mapPairs : Renames r (List.map r.mapPair) l.mapPairs l.mapPairs :=
  (Renames.ahead _).bind fun _ => (Renames.ahead _).bind fun _ => .ite (.pure rfl) hl.mapPair.items

theorem mapBody : Renames r r.expr l.mapBody l.mapBody := by
  have hbase : Renames r (Option.map (r.ann r.expr)) (onSymbol [("|", some <$> l.expr)] (pure none))
      (onSymbol [("|", some <$> l.expr)] (pure none)) :=
    .onSymbol_one (hl.expr.map fun _ => rfl) (.pure rfl)
  exact hl.mapPairs.bind fun _ => hbase.bind fun _ => (Renames.expect _).bind fun _ =>
    .pure (by simp [Transform.expr])

theorem arguments : Renames r (List.map (r.ann r.expr)) l.arguments l.arguments :=
  (Renames.expect "(").bind fun _ => hl.expr.sequence ")"

theorem bindingThen {body : Parser (Ann Expr)} (hbody : Renames r (r.ann r.expr) body body) :
    Renames r r.expr (l.bindingThen body) (l.bindingThen body) :=
  hl.varList.bind fun _ => (Renames.expect "=").bind fun _ => hl.expr.bind fun _ =>
    (Renames.expect "in").bind fun _ => hbody.bind fun _ => .pure (by simp [Transform.expr])

theorem stepThen {next : Parser (Ann Expr)} (hnext : Renames r (r.ann r.expr) next next) :
    Renames r r.expr (l.stepThen next) (l.stepThen next) :=
  hl.expr.bind fun _ => hnext.bind fun _ => .pure (by simp [Transform.expr])

theorem chain (n : Nat) : Renames r (r.ann r.expr) (l.chain n) (l.chain n) := by
  induction n with
  | zero => exact hl.expr
  | succ n ih =>
    refine .onKeyword ?_ hl.expr
    simp only [List.forall_mem_cons]
    exact ⟨(hl.bindingThen ih).map fun _ => rfl, (hl.stepThen ih).map fun _ => rfl,
      List.forall_mem_nil _⟩

theorem lambda : Renames r r.expr l.lambda l.lambda :=
  (Renames.expect "(").bind fun _ => (hl.variableName.sequence ")").bind fun _ =>
    (Renames.expect "->").bind fun _ => hl.expr.bind fun _ => .pure (by simp [Transform.expr])

theorem letRec : Renames r r.expr l.letRec l.letRec :=
  (hl.definitions "in").bind fun _ => hl.expr.bind fun _ => .pure (by simp [Transform.expr])

theorem caseOf : Renames r r.expr l.caseOf l.caseOf :=
  hl.expr.bind fun _ => (Renames.expect "of").bind fun _ => (hl.clauses "end").bind fun _ =>
    .pure (by simp [Transform.expr])

theorem receive : Renames r r.expr l.receive l.receive :=
  (hl.clauses "after").bind fun _ => hl.expr.bind fun _ => (Renames.expect "->").bind fun _ =>
    hl.expr.bind fun _ => .pure (by simp [Transform.expr])

theorem apply : Renames r r.expr l.apply l.apply :=
  hl.expr.bind fun _ => hl.arguments.bind fun _ => .pure (by simp [Transform.expr])

theorem call : Renames r r.expr l.call l.call :=
  hl.expr.bind fun _ => (Renames.expect ":").bind fun _ => hl.expr.bind fun _ =>
    hl.arguments.bind fun _ => .pure (by simp [Transform.expr])

theorem primop : Renames r r.expr l.primop l.primop :=
  hl.atom.bind fun _ => hl.arguments.bind fun _ => .pure (by simp [Transform.expr, Transform.ann])

theorem tryOf : Renames r r.expr l.tryOf l.tryOf :=
  hl.expr.bind fun _ => (Renames.expect "of").bind fun _ => hl.varList.bind fun _ =>
    (Renames.expect "->").bind fun _ => hl.expr.bind fun _ => (Renames.expect "catch").bind fun _ =>
    hl.varList.bind fun _ => (Renames.expect "->").bind fun _ => hl.expr.bind fun _ =>
    .pure (by simp [Transform.expr])

theorem keywordCases : ∀ c ∈ l.keywordCases, Renames r r.expr c.2 c.2 := by
  simp only [Level.keywordCases, List.forall_mem_cons]
  exact ⟨hl.lambda, hl.letRec, hl.caseOf, hl.receive, hl.apply, hl.call, hl.primop, hl.tryOf,
    hl.expr.map fun _ => by simp [Transform.expr], List.forall_mem_nil _⟩

theorem exprCases : ∀ c ∈ l.exprCases, Renames r r.expr c.2 c.2 := by
  simp only [Level.exprCases, List.forall_mem_cons]
  exact ⟨bracketed hl.expr rfl fun _ _ => by simp [Transform.expr],
    (hl.expr.sequence _).map fun _ => by simp [Transform.expr],
    (hl.expr.sequence _).map fun _ => by simp [Transform.expr],
    (hl.exprSegment.sequence _).map fun _ => by simp [Transform.expr], hl.mapBody,
    List.forall_mem_nil _⟩

theorem compoundExpr : Renames r r.expr l.compoundExpr l.compoundExpr := by
  rw [Level.compoundExpr, bindingChain_eq]
  refine .peek r.opensChain_map ?_ (.onKeyword hl.keywordCases (.onSymbol hl.exprCases (.fail rfl)))
  exact (Renames.remaining.bind hl.chain).bind fun _ => .pure rfl

theorem bareExpr : Renames r r.expr l.bareExpr l.bareExpr := by
  refine Renames.var?.bind fun name => ?_
  cases name with
  | some name => exact .pure rfl
  | none =>
    refine .peek r.opensFunName_map ((bareFunName l).bind fun _ => .pure rfl) ?_
    refine (Renames.literal? l.digits).bind fun value => ?_
    cases value with
    | some value => exact .pure rfl
    | none => exact hl.compoundExpr

/-! ## Modules and levels -/

theorem attributePair :
    Renames r (Prod.map r.atom r.const) l.attributePair l.attributePair :=
  hl.atom.bind fun _ => (Renames.expect "=").bind fun _ => hl.constant.bind fun _ => .pure rfl

theorem header : Renames r r.unit l.header l.header := by
  have hexport : Renames r r.funName (do return (← l.funName).node)
      (do return (← l.funName).node) :=
    hl.funName.bind fun _ => .pure rfl
  exact (Renames.expect "module").bind fun _ => (Renames.expectKind .atom).bind fun _ =>
    (Renames.expect "[").bind fun _ => (hexport.sequence "]").bind fun _ =>
    (Renames.expect "attributes").bind fun _ => (Renames.expect "[").bind fun _ =>
    (hl.attributePair.sequence "]").bind fun _ => .pure rfl

theorem bareModule : Renames r r.unit l.bareModule l.bareModule := by
  rw [bareModule_eq]
  exact hl.header.bind fun m => (hl.definitions "end").map fun ds => by
    rw [Renaming.unit, Renaming.unit]

theorem next : l.next.Natural r where
  const := hl.annotated hl.const hl.bareConst
  atom := hl.annotated hl.atom (Renames.expectKind .atom)
  var := hl.annotated hl.var (Renames.expectKind .var)
  funName := hl.annotated hl.funName (bareFunName l)
  pattern := hl.annotated hl.pattern hl.barePattern
  expr := hl.annotated hl.expr hl.bareExpr
  unit := hl.annotated hl.unit hl.bareModule

end Level.Natural

theorem Level.natural_ofDepth (r : Moving) (digits depth : Nat) :
    (Level.ofDepth digits depth).Natural r := by
  induction depth with
  | zero => exact ⟨.tooDeep, .tooDeep, .tooDeep, .tooDeep, .tooDeep, .tooDeep, .tooDeep⟩
  | succ depth ih => exact ih.next

/-- What is read from all the tokens. -/
theorem Parser.Renames.whole {α β : Type} {r : Moving} {f : α → β} {p : Parser α} {q : Parser β}
    (hp : Renames r f p q) (ts : List Token) :
    q.whole (ts.map r.token) = ((p.whole ts).map f).mapError r.failure := by
  rw [Parser.whole, Parser.whole, hp ts]
  rcases p ts with e | ⟨x, _ | ⟨t, rest⟩⟩ <;> rfl

/-- The line and the column that are told of an error in the text. -/
def ReadError.place : ReadError → Option (Option Int × Option Int)
  | .malformed d => some (d.line, d.column)
  | .conversion _ => none

theorem Renaming.place_failure (r : Renaming) (file : Option String) (text : List Char)
    (e : ParseFailure) :
    (ReadError.ofParseFailure file text (r.failure e)).place =
      (ReadError.ofParseFailure file text e).place := by
  cases e with
  | unexpected wanted found => cases found <;> rfl
  | tooDeep | conversion => rfl

/-- Tokens with other names are read just if the tokens are, and as the same tree with other names.
If they are not, the same line and column are told. The calls of the tree have other targets, and
are otherwise the same calls in the same order. -/
theorem parsing_commutes_with_renaming (r : Renaming) (depth : Nat) (ts : List Token) :
    moduleOfTokens depth (ts.map r.token) =
      ((moduleOfTokens depth ts).map (r.ann r.unit)).mapError r.failure ∧
    exprOfTokens depth (ts.map r.token) =
      ((exprOfTokens depth ts).map (r.ann r.expr)).mapError r.failure ∧
    (∀ file text e, (ReadError.ofParseFailure file text (r.failure e)).place =
      (ReadError.ofParseFailure file text e).place) ∧
    ∀ limit m, ((r.unit m).report limit).map Report.undescribed =
      (m.report limit).map fun x => (r.report x).undescribed :=
  have hlevel := Level.natural_ofDepth r numeralLimit depth
  ⟨hlevel.unit.whole ts, hlevel.expr.whole ts, r.place_failure, r.report_unit⟩

end CallGraph
