import CallGraph.Conversion
import CallGraph.Proofs.Renaming
import Mathlib.Data.List.Forall2

/-!
What the calls of a module do not depend on. A module is erased: its annotations, guards, patterns
and binders go, and so do its attributes, its exports, and the names of its definitions and of its
primitive operations. An erased module makes the calls that it made before, in the same order. Only
the description of a call whose target is not plain may be another one, and it may be that only one
of the two can be made.
-/

namespace CallGraph

/-! ## Erased trees -/

/-- What stands in the place of every guard. -/
def Expr.erasedGuard : Ann Expr := .plain (.lit .nil)

/-- No annotations, guards, patterns and binders, and nameless definitions and primitive
operations. -/
def Transform.erasing : Transform where
  binders _ := []
  defined _ := ⟨"", 0⟩
  primop _ := ""
  keepsAnnotations := false
  patterns _ := []
  guard _ := Expr.erasedGuard

/-- The module with its name and the erased functions of its definitions. -/
def Module.erased (m : Module) : Module :=
  ⟨m.name, [], [], Transform.erasing.annDefinitions m.definitions⟩

namespace Transform

theorem erasing_keepsNames : erasing.KeepsNames := fun _ => rfl

/-- Atoms and variables have nothing that is erased. -/
theorem erasing_expr_of_isName {e : Expr} (h : e.isName = true) : erasing.expr e = e := by
  obtain ⟨a, rfl⟩ | ⟨v, rfl⟩ := Expr.of_isName h <;> rfl

/-- The target of a call is named after erasing if it was named before. -/
theorem erasing_call_target (t : Target) :
    (erasing.target t).call.undescribed = t.call.undescribed := by
  cases h : t.isPlain with
  | true =>
    obtain ⟨hunit, hfunction⟩ := Bool.and_eq_true_iff.1 h
    rw [target, erasing_expr_of_isName hunit, erasing_expr_of_isName hfunction]
  | false =>
    have h' : (erasing.target t).isPlain = false := by
      rw [erasing_keepsNames.isPlain_target, h]
    rw [Target.call_of_not_isPlain h, Target.call_of_not_isPlain h']
    rfl

end Transform

theorem Module.targets_erased (m : Module) :
    m.erased.targets = m.targets.map Transform.erasing.target :=
  Transform.annDefinitions_targets rfl m.definitions

theorem Module.undescribed_erased (m : Module) :
    (m.erased.targets.map Target.call).map Call.undescribed =
      (m.targets.map Target.call).map Call.undescribed := by
  rw [targets_erased, List.map_map, List.map_map, List.map_map]
  exact List.map_congr_left fun t _ => Transform.erasing_call_target t

theorem Module.map_isPlain_erased (m : Module) :
    m.erased.targets.map Target.isPlain = m.targets.map Target.isPlain := by
  rw [targets_erased, List.map_map]
  exact List.map_congr_left fun t _ => Transform.erasing_keepsNames.isPlain_target t

/-- All the targets of a module are plain. -/
def Module.Plain (m : Module) : Prop := ∀ t ∈ m.targets, t.isPlain = true

theorem Module.Plain.describable {m : Module} (h : m.Plain) (limit : Nat) : m.Describable limit :=
  fun t ht => .inl (h t ht)

theorem Module.plain_iff {m : Module} : m.Plain ↔ ∀ b ∈ m.targets.map Target.isPlain, b = true := by
  rw [List.forall_mem_map, Plain]

theorem Module.Plain.of_erased_eq {m m' : Module} (h : m.erased = m'.erased) (hm : m.Plain) :
    m'.Plain := by
  rw [plain_iff] at hm ⊢
  rwa [← m'.map_isPlain_erased, ← h, m.map_isPlain_erased]

/-! ## Modules that are erased to the same -/

/-- The calls are of the same kind, and the same unless neither has a plain target. -/
def Call.Agrees (c c' : Call) : Prop :=
  c.kind = c'.kind ∧ (c.kind ≠ "unimplemented" → c = c')

theorem Call.agrees_of_undescribed_eq {c c' : Call} (h : c.undescribed = c'.undescribed) :
    c.Agrees c' := by
  cases c <;> cases c' <;> cases h
  case unimplemented => exact ⟨rfl, fun hkind => absurd rfl hkind⟩
  all_goals exact ⟨rfl, fun _ => rfl⟩

theorem Call.forall₂_agrees_of_undescribed_eq {cs cs' : List Call} (h : cs.map undescribed = cs'.map undescribed) :
    List.Forall₂ Agrees cs cs' := by
  have heq : List.Forall₂ Eq (cs.map undescribed) (cs'.map undescribed) := by
    rw [List.forall₂_eq_eq_eq]
    exact h
  rw [List.forall₂_map_left_iff, List.forall₂_map_right_iff] at heq
  exact heq.imp fun _ _ => agrees_of_undescribed_eq

/-- Modules that are erased to the same module have the same name, and their calls agree one by
one: there are as many, of the same kinds, and with the same targets where the targets are plain. It
may be that one of them has a report and the other has none, but not if all the targets are plain. -/
theorem report_agrees_of_erased_eq {m m' : Module} (h : m.erased = m'.erased) (limit : Nat) :
    (m.Describable limit → m'.Describable limit →
      ∃ r r', m.report limit = .ok r ∧ m'.report limit = .ok r' ∧ r.unit = r'.unit ∧
        List.Forall₂ Call.Agrees r.calls r'.calls) ∧
    (¬ m.Describable limit → m.report limit = .error .tooDeep) ∧
    (m.Plain → m.Describable limit ∧ m'.Describable limit) := by
  refine ⟨fun hm hm' => ?_, Module.report_of_not_describable, fun hplain => ?_⟩
  · refine ⟨_, _, Module.report_of_describable hm, Module.report_of_describable hm', ?_, ?_⟩
    · exact (Module.mk.inj h).1
    · apply Call.forall₂_agrees_of_undescribed_eq
      rw [← m.undescribed_erased, ← m'.undescribed_erased, h]
  · exact ⟨hplain.describable limit, (hplain.of_erased_eq h).describable limit⟩

/-- A module whose one function makes two calls, the second to a target that is not plain. The parts
of it that are erased are given. -/
def Module.dispatching (exports : List FunName) (name : FunName) (binder : String)
    (annotations : List Const) (guard : Expr) : Module where
  name := "m"
  exports := exports
  attributes := exports.map fun f => (f.name, .lit (.integer f.arity))
  definitions :=
    [⟨⟨name, ⟨.lambda [binder] ⟨.caseOf (.plain (.var "X"))
      [⟨⟨[.var binder], .plain guard, .plain (.call (.plain (.lit (.atom "lists")))
        ⟨.lambda [] ⟨.var "F", annotations⟩, annotations⟩
        [.plain (.call ⟨.lit (.atom "io"), annotations⟩ (.plain (.var "F")) [])])⟩, annotations⟩],
      annotations⟩, annotations⟩⟩, annotations⟩]

/-- A call in a guard is not reported, and the target that is not plain is described in two ways. -/
theorem report_agrees_of_erased_eq_dispatching :
    let m := Module.dispatching [] ⟨"f", 1⟩ "X" [] (.lit (.atom "true"))
    let m' := Module.dispatching [⟨"g", 1⟩] ⟨"g", 1⟩ "Y" [.lit (.integer 7)]
      (.call (.plain (.lit (.atom "erlang"))) (.plain (.lit (.atom "node"))) [])
    m.erased = m'.erased ∧ ∃ r r', m.report stackLimit = .ok r ∧ m'.report stackLimit = .ok r' ∧
      r.unit = r'.unit ∧ List.Forall₂ Call.Agrees r.calls r'.calls ∧
      r.calls.map Call.kind = ["dyn_function", "unimplemented"] ∧ r.calls ≠ r'.calls := by
  intro m m'
  have h : m.erased = m'.erased := rfl
  have hm : m.Describable stackLimit := Module.describable_iff.2 rfl
  have hm' : m'.Describable stackLimit := Module.describable_iff.2 rfl
  obtain ⟨r, r', hr, hr', hunit, hcalls⟩ := (report_agrees_of_erased_eq h stackLimit).1 hm hm'
  refine ⟨h, r, r', hr, hr', hunit, hcalls, ?_⟩
  rw [Module.report_of_describable hm] at hr
  rw [Module.report_of_describable hm'] at hr'
  cases hr
  cases hr'
  exact ⟨rfl, by decide +kernel⟩

/-- A module that calls the value of a case with a guard. -/
def Module.guarding (guard : Expr) : Module where
  name := "m"
  exports := []
  attributes := []
  definitions :=
    [.plain ⟨⟨"f", 1⟩, .plain (.lambda ["X"] (.plain (.call
      (.plain (.caseOf (.plain (.var "X"))
        [.plain ⟨[.var "Y"], .plain guard, .plain (.var "M")⟩]))
      (.plain (.lit (.atom "g"))) [])))⟩]

theorem Module.not_describable_guarding {guard : Expr} {limit : Nat}
    (h : limit ≤ guard.outline.depth) : ¬ (guarding guard).Describable limit := by
  intro hdescribable
  rcases hdescribable _ List.mem_cons_self with hplain | hdepth
  · cases hplain
  · simp only [Target.outline, Expr.outline, Expr.annOutline, Clause.annOutlines, Clause.outline,
      Ann.plain, Outline.annotated, Outline.depth, Outline.depthAll, Outline.depthFields] at hdepth
    omega

/-- A guard that is a long chain of bindings leaves a module without its report, though it is
erased. -/
theorem report_guarding_letChain :
    let m := Module.guarding (.lit (.atom "true"))
    let m' := Module.guarding (.letChain 1000)
    m.erased = m'.erased ∧ (∃ r, m.report stackLimit = .ok r ∧ r.calls.length = 1) ∧
      m'.report stackLimit = .error .tooDeep := by
  intro m m'
  have hm : m.Describable stackLimit := Module.describable_iff.2 rfl
  have hdepth : stackLimit ≤ (Expr.letChain 1000).outline.depth := by
    have hchain := Expr.lt_depth_letChain 1000
    rw [stackLimit]
    omega
  exact ⟨rfl, ⟨_, Module.report_of_describable hm, rfl⟩,
    Module.report_of_not_describable (Module.not_describable_guarding hdepth)⟩

end CallGraph
