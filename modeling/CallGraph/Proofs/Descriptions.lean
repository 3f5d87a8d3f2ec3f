import CallGraph.Proofs.DeepTargets
import CallGraph.Proofs.Dot.Lines
import Mathlib.Data.Finset.Card

/-!
Descriptions stand on one line. What an outline holds is quoted or is a number, and its labels are
words, so the description of a call has no line break, however large the expressions are that it
describes. So each call takes one line of a drawing.
-/

namespace CallGraph

namespace Text

/-! ## Quoted texts and numbers -/

theorem newline_not_mem_toDigits {base : Nat} (hbase : 1 < base) (n : Nat) :
    '\n' ∉ Nat.toDigits base n := by
  have hdigit (k : Nat) : '\n' ≠ Nat.digitChar k := by simp
  induction n using Nat.strongRecOn with
  | ind n ih =>
    rw [Nat.toDigits_eq_if hbase]
    split
    case isTrue =>
      rw [List.mem_singleton]
      exact hdigit n
    case isFalse hn =>
      have hquotient : n / base < n := Nat.div_lt_self (by omega) hbase
      rw [List.mem_append, List.mem_singleton, not_or]
      exact ⟨ih _ hquotient, hdigit _⟩

theorem newline_not_mem_replicate_zero (n : Nat) : '\n' ∉ List.replicate n '0' :=
  fun h => absurd (List.eq_of_mem_replicate h) (by decide)

theorem newline_not_mem_hexadecimal (width n : Nat) : '\n' ∉ hexadecimal width n := by
  rw [hexadecimal, List.mem_append, not_or]
  exact ⟨newline_not_mem_replicate_zero _, newline_not_mem_toDigits (by decide) n⟩

/-- A line break is among the characters that are escaped. -/
theorem newline_not_mem_shownBetween {mark : Char} (hmark : mark ≠ '\n') (c : Char) :
    '\n' ∉ shownBetween mark c := by
  have hhex := newline_not_mem_hexadecimal
  by_cases hc : c = '\n'
  · subst hc
    simp [shownBetween, hmark.symm]
  · simp only [shownBetween]
    split_ifs <;> simp [hhex, Ne.symm hc]

theorem isLine_quoted (s : String) : IsLine (quoted s) := by
  have hmark : quoteMark s.toList ≠ '\n' := by
    rw [quoteMark]
    split <;> decide
  rw [quoted, isLine_ofList, List.mem_append, List.mem_cons, List.mem_flatMap, List.mem_singleton]
  rintro ((h | ⟨c, -, hc⟩) | h)
  · exact hmark h.symm
  · exact newline_not_mem_shownBetween hmark c hc
  · exact hmark h.symm

theorem isLine_repr (n : Nat) : IsLine n.repr := by
  rw [Nat.repr_eq_ofList_toDigits, isLine_ofList]
  exact newline_not_mem_toDigits (by decide) n

theorem isLine_toString_int (n : Int) : IsLine (toString n) := by
  cases n with
  | ofNat n => exact isLine_repr n
  | negSucc n => exact isLine_append.2 ⟨by decide, isLine_repr (n + 1)⟩

end Text

open Text

theorem NumberFormat.newline_not_mem_exponentPart (e : Int) : '\n' ∉ exponentPart e := by
  have hsign : '\n' ≠ if e < 0 then '-' else '+' := by split <;> decide
  rw [exponentPart, List.mem_cons, List.mem_cons, List.mem_append, not_or, not_or, not_or]
  exact ⟨by decide, hsign, newline_not_mem_replicate_zero _, newline_not_mem_toDigits (by decide) _⟩

theorem NumberFormat.isLine_write (f : NumberFormat) (d : Decimal) : IsLine (f.write d) := by
  have hds := newline_not_mem_toDigits (by decide : 1 < 10) d.digits
  have htake (n : Nat) : '\n' ∉ (Nat.toDigits 10 d.digits).take n :=
    fun h => hds (List.mem_of_mem_take h)
  have hdrop (n : Nat) : '\n' ∉ (Nat.toDigits 10 d.digits).drop n :=
    fun h => hds (List.mem_of_mem_drop h)
  rw [write, isLine_ofList]
  split_ifs <;> simp [-List.drop_one, hds, htake, hdrop, newline_not_mem_exponentPart]

theorem Binary64.isLine_text (x : Binary64) : IsLine x.text := by
  cases x with
  | finite s m e =>
    have hbody : IsLine (if m == 0 then "0.0" else format.write (shortest m e)) := by
      split
      · decide
      · exact NumberFormat.isLine_write _ _
    cases s with
    | false => exact hbody
    | true => exact isLine_append.2 ⟨by decide, hbody⟩
  | infinite s => cases s <;> decide
  | nan => decide

/-! ## Outlines -/

namespace Outline

mutual

/-- The labels and the names of the fields have no line breaks. -/
def Tidy : Outline → Prop
  | .absent | .text _ | .integer _ | .float _ => True
  | .list items | .tuple items => AllTidy items
  | .node label fields => IsLine label ∧ FieldsTidy fields

def AllTidy : List Outline → Prop
  | [] => True
  | item :: items => item.Tidy ∧ AllTidy items

def FieldsTidy : List (String × Outline) → Prop
  | [] => True
  | (name, value) :: fields => IsLine name ∧ value.Tidy ∧ FieldsTidy fields

end

/-- Items between two marks. -/
theorem isLine_enclosed {first last : String} (hfirst : IsLine first) {items : List String}
    (hitems : ∀ s ∈ items, IsLine s) (hlast : IsLine last) :
    IsLine (first ++ joined items ++ last) := by
  rw [isLine_append, isLine_append]
  exact ⟨⟨hfirst, isLine_intercalate (by decide) hitems⟩, hlast⟩

mutual

theorem isLine_describe : (o : Outline) → o.Tidy → IsLine o.describe
  | .absent, _ => by
    rw [describe]
    decide
  | .text s, _ => by
    rw [describe]
    exact isLine_quoted s
  | .integer n, _ => by
    rw [describe]
    exact isLine_toString_int n
  | .float x, _ => by
    rw [describe]
    exact x.isLine_text
  | .list items, h => by
    rw [Tidy] at h
    rw [describe]
    exact isLine_enclosed (by decide) (isLine_of_mem_describeAll items h) (by decide)
  | .tuple [], _ => by decide
  | .tuple [item], h => by
    rw [Tidy, AllTidy] at h
    rw [describe, isLine_append, isLine_append]
    exact ⟨⟨by decide, isLine_describe item h.1⟩, by decide⟩
  | .tuple (item :: item' :: items), h => by
    rw [Tidy] at h
    rw [describe]
    · exact isLine_enclosed (by decide) (isLine_of_mem_describeAll _ h) (by decide)
    · simp
  | .node label fields, h => by
    rw [Tidy] at h
    rw [describe]
    exact isLine_enclosed (isLine_append.2 ⟨h.1, by decide⟩)
      (isLine_of_mem_describeFields fields h.2) (by decide)

theorem isLine_of_mem_describeAll : (items : List Outline) → AllTidy items →
    ∀ s ∈ describeAll items, IsLine s
  | [], _ => by simp [describeAll]
  | item :: items, h => by
    rw [AllTidy] at h
    rw [describeAll, List.forall_mem_cons]
    exact ⟨isLine_describe item h.1, isLine_of_mem_describeAll items h.2⟩

theorem isLine_of_mem_describeFields : (fields : List (String × Outline)) → FieldsTidy fields →
    ∀ s ∈ describeFields fields, IsLine s
  | [], _ => by simp [describeFields]
  | (name, value) :: fields, h => by
    rw [FieldsTidy] at h
    rw [describeFields, List.forall_mem_cons, isLine_append, isLine_append]
    exact ⟨⟨⟨h.1, by decide⟩, isLine_describe value h.2.1⟩,
      isLine_of_mem_describeFields fields h.2.2⟩

end

theorem fieldsTidy_of_words {fields : List (String × Outline)}
    (hwords : ∀ name ∈ fields.map Prod.fst, IsLine name) (hvalues : AllTidy (fields.map Prod.snd)) :
    FieldsTidy fields := by
  induction fields with
  | nil => rw [FieldsTidy]; trivial
  | cons field fields ih =>
    rw [List.map_cons, List.forall_mem_cons] at hwords
    rw [List.map_cons, AllTidy] at hvalues
    rw [FieldsTidy]
    exact ⟨hwords.1, hvalues.1, ih hwords.2 hvalues.2⟩

/-- A node with words as its label and as the names of its fields. -/
theorem tidy_node {label : String} {fields : List (String × Outline)}
    (hwords : ∀ word ∈ label :: fields.map Prod.fst, IsLine word)
    (hvalues : AllTidy (fields.map Prod.snd)) : (node label fields).Tidy := by
  obtain ⟨hlabel, hnames⟩ := List.forall_mem_cons.1 hwords
  rw [Tidy]
  exact ⟨hlabel, fieldsTidy_of_words hnames hvalues⟩

theorem tidy_names (vars : List String) : (names vars).Tidy := by
  rw [names, Tidy]
  induction vars with
  | nil => trivial
  | cons v vars ih => exact ⟨trivial, ih⟩

end Outline

open Outline (tidy_node tidy_names)

theorem Literal.tidy_outline (l : Literal) : l.outline.Tidy := by
  cases l <;> exact tidy_node (by simp [IsLine]) (by trivial)

mutual

theorem Const.tidy_outline : (c : Const) → c.outline.Tidy
  | .lit value => value.tidy_outline
  | .tuple elements => tidy_node (by simp [IsLine]) ⟨Const.tidy_outlines elements, trivial⟩
  | .list elements tail =>
    tidy_node (by simp [IsLine]) ⟨Const.tidy_outlines elements, Const.tidy_outline? tail, trivial⟩
  | .binary segments => tidy_node (by simp [IsLine]) ⟨Const.tidy_segmentOutlines segments, trivial⟩
  | .map pairs => tidy_node (by simp [IsLine]) ⟨Const.tidy_pairOutlines pairs, trivial⟩

theorem Const.tidy_outlines : (cs : List Const) → Outline.AllTidy (Const.outlines cs)
  | [] => trivial
  | c :: cs => ⟨c.tidy_outline, Const.tidy_outlines cs⟩

theorem Const.tidy_outline? : (c : Option Const) → (Const.outline? c).Tidy
  | none => trivial
  | some c => c.tidy_outline

theorem Const.tidy_segmentOutlines : (segments : List (List Const)) →
    Outline.AllTidy (Const.segmentOutlines segments)
  | [] => trivial
  | cs :: segments => ⟨Const.tidy_outlines cs, Const.tidy_segmentOutlines segments⟩

theorem Const.tidy_pairOutlines : (pairs : List (Const × Const)) →
    Outline.AllTidy (Const.pairOutlines pairs)
  | [] => trivial
  | (k, v) :: pairs =>
    ⟨⟨k.tidy_outline, v.tidy_outline, trivial⟩, Const.tidy_pairOutlines pairs⟩

end

theorem Outline.tidy_annotated {node : Outline} (hnode : node.Tidy) (annotations : List Const) :
    (node.annotated annotations).Tidy :=
  tidy_node (by simp [IsLine]) ⟨hnode, Const.tidy_outlines annotations, trivial⟩

theorem FunName.tidy_outline (f : FunName) : f.outline.Tidy :=
  tidy_node (by simp [IsLine]) ⟨trivial, trivial, trivial⟩

-- By recursion on the tree, with one case for each kind of part that a description shows.
mutual

theorem Expr.tidy_outline : (e : Expr) → e.outline.Tidy
  | .var _ => tidy_node (by simp [IsLine]) ⟨trivial, trivial⟩
  | .lit value => tidy_node (by simp [IsLine]) ⟨value.tidy_outline, trivial⟩
  | .funRef name => tidy_node (by simp [IsLine]) ⟨name.tidy_outline, trivial⟩
  | .lambda params body =>
    tidy_node (by simp [IsLine]) ⟨tidy_names params, Expr.tidy_annOutline body, trivial⟩
  | .apply function args =>
    tidy_node (by simp [IsLine])
      ⟨Expr.tidy_annOutline function, Expr.tidy_annOutlines args, trivial⟩
  | .call unit function args =>
    tidy_node (by simp [IsLine])
      ⟨Expr.tidy_annOutline unit, Expr.tidy_annOutline function, Expr.tidy_annOutlines args,
        trivial⟩
  | .primop _ args =>
    tidy_node (by simp [IsLine]) ⟨trivial, Expr.tidy_annOutlines args, trivial⟩
  | .seq first next =>
    tidy_node (by simp [IsLine]) ⟨Expr.tidy_annOutline first, Expr.tidy_annOutline next, trivial⟩
  | .letIn vars value body =>
    tidy_node (by simp [IsLine])
      ⟨tidy_names vars, Expr.tidy_annOutline value, Expr.tidy_annOutline body, trivial⟩
  | .letRec definitions body =>
    tidy_node (by simp [IsLine])
      ⟨Definition.tidy_annOutlines definitions, Expr.tidy_annOutline body, trivial⟩
  | .caseOf subject clauses =>
    tidy_node (by simp [IsLine])
      ⟨Expr.tidy_annOutline subject, Clause.tidy_annOutlines clauses, trivial⟩
  | .receive clauses timeout action =>
    tidy_node (by simp [IsLine])
      ⟨Clause.tidy_annOutlines clauses, Expr.tidy_annOutline timeout, Expr.tidy_annOutline action,
        trivial⟩
  | .tryOf body vars success handlerVars handler =>
    tidy_node (by simp [IsLine])
      ⟨Expr.tidy_annOutline body, tidy_names vars, Expr.tidy_annOutline success,
        tidy_names handlerVars, Expr.tidy_annOutline handler, trivial⟩
  | .catching body => tidy_node (by simp [IsLine]) ⟨Expr.tidy_annOutline body, trivial⟩
  | .tuple elements => tidy_node (by simp [IsLine]) ⟨Expr.tidy_annOutlines elements, trivial⟩
  | .list elements tail =>
    tidy_node (by simp [IsLine])
      ⟨Expr.tidy_annOutlines elements, Expr.tidy_annOutline? tail, trivial⟩
  | .binary segments => tidy_node (by simp [IsLine]) ⟨Segment.tidy_outlines segments, trivial⟩
  | .map pairs base =>
    tidy_node (by simp [IsLine]) ⟨MapPair.tidy_outlines pairs, Expr.tidy_annOutline? base, trivial⟩
  | .values elements => tidy_node (by simp [IsLine]) ⟨Expr.tidy_annOutlines elements, trivial⟩

theorem Expr.tidy_annOutline : (e : Ann Expr) → (Expr.annOutline e).Tidy
  | ⟨e, annotations⟩ => Outline.tidy_annotated e.tidy_outline annotations

theorem Expr.tidy_annOutlines : (es : List (Ann Expr)) → Outline.AllTidy (Expr.annOutlines es)
  | [] => trivial
  | e :: es => ⟨Expr.tidy_annOutline e, Expr.tidy_annOutlines es⟩

theorem Expr.tidy_annOutline? : (e : Option (Ann Expr)) → (Expr.annOutline? e).Tidy
  | none => trivial
  | some e => Expr.tidy_annOutline e

theorem Definition.tidy_outline : (d : Definition) → d.outline.Tidy
  | ⟨name, function⟩ =>
    tidy_node (by simp [IsLine]) ⟨name.tidy_outline, Expr.tidy_annOutline function, trivial⟩

theorem Definition.tidy_annOutlines : (ds : List (Ann Definition)) →
    Outline.AllTidy (Definition.annOutlines ds)
  | [] => trivial
  | ⟨d, annotations⟩ :: ds =>
    ⟨Outline.tidy_annotated d.tidy_outline annotations, Definition.tidy_annOutlines ds⟩

theorem Clause.tidy_outline : (c : Clause) → c.outline.Tidy
  | ⟨patterns, guard, body⟩ =>
    tidy_node (by simp [IsLine])
      ⟨Pattern.tidy_outlines patterns, Expr.tidy_annOutline guard, Expr.tidy_annOutline body,
        trivial⟩

theorem Clause.tidy_annOutlines : (cs : List (Ann Clause)) →
    Outline.AllTidy (Clause.annOutlines cs)
  | [] => trivial
  | ⟨c, annotations⟩ :: cs =>
    ⟨Outline.tidy_annotated c.tidy_outline annotations, Clause.tidy_annOutlines cs⟩

theorem Segment.tidy_outlines : (segments : List Segment) →
    Outline.AllTidy (Segment.outlines segments)
  | [] => trivial
  | ⟨value, size, unit, type, flags⟩ :: segments =>
    ⟨tidy_node (by simp [IsLine])
        ⟨Expr.tidy_annOutline value, Expr.tidy_annOutline size, Expr.tidy_annOutline unit,
          Expr.tidy_annOutline type, Expr.tidy_annOutline flags, trivial⟩,
      Segment.tidy_outlines segments⟩

theorem MapPair.tidy_outlines : (pairs : List MapPair) → Outline.AllTidy (MapPair.outlines pairs)
  | [] => trivial
  | ⟨key, value, _⟩ :: pairs =>
    ⟨tidy_node (by simp [IsLine])
        ⟨Expr.tidy_annOutline key, Expr.tidy_annOutline value, trivial, trivial⟩,
      MapPair.tidy_outlines pairs⟩

theorem Pattern.tidy_outline : (p : Pattern) → p.outline.Tidy
  | .var _ => tidy_node (by simp [IsLine]) ⟨trivial, trivial⟩
  | .lit value => tidy_node (by simp [IsLine]) ⟨value.tidy_outline, trivial⟩
  | .tuple elements => tidy_node (by simp [IsLine]) ⟨Pattern.tidy_outlines elements, trivial⟩
  | .list elements tail =>
    tidy_node (by simp [IsLine])
      ⟨Pattern.tidy_outlines elements, Pattern.tidy_outline? tail, trivial⟩
  | .binary segments =>
    tidy_node (by simp [IsLine]) ⟨PatternSegment.tidy_outlines segments, trivial⟩
  | .map pairs => tidy_node (by simp [IsLine]) ⟨PatternPair.tidy_outlines pairs, trivial⟩
  | .alias _ pattern =>
    tidy_node (by simp [IsLine])
      ⟨tidy_node (by simp [IsLine]) ⟨trivial, trivial⟩, pattern.tidy_outline, trivial⟩

theorem Pattern.tidy_outlines : (ps : List Pattern) → Outline.AllTidy (Pattern.outlines ps)
  | [] => trivial
  | p :: ps => ⟨p.tidy_outline, Pattern.tidy_outlines ps⟩

theorem Pattern.tidy_outline? : (p : Option Pattern) → (Pattern.outline? p).Tidy
  | none => trivial
  | some p => p.tidy_outline

theorem PatternSegment.tidy_outlines : (segments : List PatternSegment) →
    Outline.AllTidy (PatternSegment.outlines segments)
  | [] => trivial
  | ⟨pattern, size, unit, type, flags⟩ :: segments =>
    ⟨tidy_node (by simp [IsLine])
        ⟨pattern.tidy_outline, Expr.tidy_annOutline size, Expr.tidy_annOutline unit,
          Expr.tidy_annOutline type, Expr.tidy_annOutline flags, trivial⟩,
      PatternSegment.tidy_outlines segments⟩

theorem PatternPair.tidy_outlines : (pairs : List PatternPair) →
    Outline.AllTidy (PatternPair.outlines pairs)
  | [] => trivial
  | ⟨key, pattern⟩ :: pairs =>
    ⟨tidy_node (by simp [IsLine]) ⟨Expr.tidy_annOutline key, pattern.tidy_outline, trivial⟩,
      PatternPair.tidy_outlines pairs⟩

end

/-! ## Calls -/

namespace Call

/-- The call has no description, or one without line breaks. -/
def Tidy : Call → Prop
  | .unimplemented description => IsLine description
  | _ => True

theorem tidy_call (t : Target) : t.call.Tidy := by
  have hdescription : IsLine t.outline.describe :=
    Outline.isLine_describe _ ⟨t.unit.tidy_outline, t.function.tidy_outline, trivial, trivial⟩
  unfold Target.call
  split
  case h_5 => exact hdescription
  all_goals trivial

end Call

theorem Module.tidy_of_report {limit : Nat} {m : Module} {r : Report} (h : m.report limit = .ok r) :
    ∀ c ∈ r.calls, c.Tidy := by
  rw [report_eq] at h
  split at h
  case isFalse => cases h
  case isTrue =>
    cases h
    intro c hc
    obtain ⟨t, -, rfl⟩ := List.mem_map.1 hc
    exact Call.tidy_call t

/-! ## The lines of a drawing -/

open Word (mark keyword)

theorem length_firstSeen (seen xs : List String) :
    (firstSeen seen xs).length = (xs.toFinset.filter (· ∉ seen)).card := by
  rw [← List.toFinset_card_of_nodup (nodup_firstSeen seen xs)]
  congr 1
  ext x
  rw [List.mem_toFinset, mem_firstSeen, Finset.mem_filter, List.mem_toFinset]

namespace Drawing

theorem length_units (reports : List Report) :
    (units reports).length = (reports.map (·.unit)).toFinset.card := by
  rw [units_eq_firstSeen, length_firstSeen, Finset.filter_true_of_mem fun _ _ => List.not_mem_nil]

theorem length_externals (reports : List Report) :
    (externals reports).length =
      ((targets reports).toFinset.filter
        fun m => m ∉ reports.map (·.unit) ∧ m ≠ "-").card := by
  have hunits (m : String) : m ∈ units reports ↔ m ∈ reports.map (·.unit) := by
    rw [units, List.mem_eraseDups]
  rw [externals_eq_firstSeen, length_firstSeen]
  congr 1
  refine Finset.filter_congr fun m _ => ?_
  rw [List.mem_cons, hunits, not_or, And.comm]

theorem length_callLines (d : Drawing) (reports : List Report) :
    (d.callLines reports).length = (reports.flatMap (·.calls)).length := by
  induction reports with
  | nil => rfl
  | cons r reports ih =>
    rw [callLines] at ih ⊢
    rw [List.flatMap_cons, List.flatMap_cons, List.length_append, List.length_append, ih,
      List.length_map]

theorem isLine_edge (unit target : String) :
    IsLine (Dot.quote unit ++ " -> " ++ Dot.quote target) := by
  rw [isLine_append, isLine_append]
  exact ⟨⟨Dot.isLine_quote unit, by decide⟩, Dot.isLine_quote target⟩

section Ignored

variable {d : Drawing} (hignored : ∀ m ∈ d.ignored, IsLine m)
include hignored

theorem isLine_callLine_of_literalModule (unit : String) {c : Call} {m : String}
    (hc : c.literalModule = some m) : IsLine (d.callLine unit c) := by
  rw [callLine_of_literalModule d unit hc]
  split_ifs with hm hdotted
  · exact Dot.isLine_comment (isLine_append.2 ⟨by decide, hignored m hm⟩)
  · exact isLine_append.2 ⟨isLine_edge unit m, by decide⟩
  · exact isLine_edge unit m

/-- A comment names an ignored module or has a description. Everywhere else the names are quoted. -/
theorem isLine_callLine (unit : String) {c : Call} (hc : c.Tidy) :
    IsLine (d.callLine unit c) := by
  cases c with
  | static | dynFunction => exact isLine_callLine_of_literalModule hignored unit rfl
  | dynModule v f n => exact isLine_edge unit v
  | dynAll v w n => exact isLine_append.2 ⟨isLine_edge unit v, by decide⟩
  | unimplemented description => exact Dot.isLine_comment (isLine_append.2 ⟨by decide, hc⟩)

theorem isLine_of_mem_lines {reports : List Report}
    (hreports : ∀ r ∈ reports, ∀ c ∈ r.calls, c.Tidy) : ∀ l ∈ d.lines reports, IsLine l := by
  have hcalls : ∀ l ∈ d.callLines reports, IsLine l := by
    intro l hl
    simp only [callLines, List.mem_flatMap, List.mem_map] at hl
    obtain ⟨r, hr, c, hc, rfl⟩ := hl
    exact isLine_append.2 ⟨by decide, isLine_callLine hignored r.unit (hreports r hr c hc)⟩
  rw [lines_eq, List.forall_mem_cons, List.forall_mem_append, List.forall_mem_append,
    List.forall_mem_append]
  exact ⟨d.isLine_headerLine, ⟨⟨fun _ => isLine_of_mem_ellipseLines,
    fun _ => isLine_of_mem_boxLines⟩, hcalls⟩, by decide⟩

/-- The lines of a drawing: one for its heading and one for its end, and a line for each unit, for
each other module that is called, and for each call. -/
theorem count_lines_of_tidy {reports : List Report}
    (hreports : ∀ r ∈ reports, ∀ c ∈ r.calls, c.Tidy) :
    (d.render reports).toList.count '\n' =
      2 + (reports.map (·.unit)).toFinset.card +
        ((targets reports).toFinset.filter fun m => m ∉ reports.map (·.unit) ∧ m ≠ "-").card +
        (reports.flatMap (·.calls)).length ∧
    (d.render reports).toList.getLast? = some '\n' ∧
    Text.lines (d.render reports) = d.headerLine ::
      (ellipseLines reports ++ boxLines reports ++ d.callLines reports ++ ["\x7d"]) := by
  have hlines := isLine_of_mem_lines hignored hreports
  rw [render_eq_ended]
  refine ⟨?_, getLast?_ended ?_, ?_⟩
  · rw [count_ended hlines, lines_eq, ← length_units, ← length_externals, ← d.length_callLines]
    simp only [List.length_cons, List.length_append, List.length_nil, ellipseLines, boxLines,
      List.length_map]
    omega
  · rw [lines_eq]
    exact List.cons_ne_nil _ _
  · rw [lines_ended, flatMap_pieces hlines, lines_eq]

end Ignored

/-- The reports of modules, if each has one. -/
def reportsOf (limit : Nat) (units : List (Ann Module)) : Except ExtractError (List Report) :=
  units.mapM (·.node.report limit)

theorem reportsOf_cons (limit : Nat) (m : Ann Module) (units : List (Ann Module)) :
    reportsOf limit (m :: units) =
      m.node.report limit >>= fun r => (r :: ·) <$> reportsOf limit units := by
  rw [reportsOf, reportsOf, List.mapM_cons]
  cases m.node.report limit <;> rfl

theorem reportsOf_of_describable {limit : Nat} {units : List (Ann Module)}
    (h : ∀ m ∈ units, m.node.Describable limit) :
    ∃ reports, reportsOf limit units = .ok reports ∧ ∀ r ∈ reports, ∀ c ∈ r.calls, c.Tidy := by
  induction units with
  | nil => exact ⟨[], rfl, List.forall_mem_nil _⟩
  | cons m units ih =>
    obtain ⟨hm, hunits⟩ := List.forall_mem_cons.1 h
    obtain ⟨reports, hreports, htidy⟩ := ih hunits
    have hreport := Module.report_of_describable hm
    refine ⟨_, ?_, List.forall_mem_cons.2 ⟨Module.tidy_of_report hreport, htidy⟩⟩
    rw [reportsOf_cons, hreport, hreports]
    rfl

theorem reportsOf_of_not_describable {limit : Nat} {units : List (Ann Module)}
    (h : ∃ m ∈ units, ¬ m.node.Describable limit) : reportsOf limit units = .error .tooDeep := by
  induction units with
  | nil => simp at h
  | cons m units ih =>
    rw [reportsOf_cons]
    by_cases hm : m.node.Describable limit
    · obtain ⟨m', hmem, hm'⟩ := h
      have hunits : m' ∈ units :=
        (List.mem_cons.1 hmem).resolve_left fun heq => hm' (heq ▸ hm)
      rw [Module.report_of_describable hm, ih ⟨m', hunits, hm'⟩]
      rfl
    · rw [Module.report_of_not_describable hm]
      rfl

/-- A drawing of modules, whatever texts they are read from, has a line for its heading and one for
its end, and a line for each unit, for each other module that is called, and for each call. There is
nothing to draw just if one of the modules cannot be described. -/
theorem count_lines_of_modules {d : Drawing} (hignored : ∀ m ∈ d.ignored, IsLine m) (limit : Nat)
    (units : List (Ann Module)) :
    ((∃ m ∈ units, ¬ m.node.Describable limit) → reportsOf limit units = .error .tooDeep) ∧
    ((∀ m ∈ units, m.node.Describable limit) →
      ∃ reports, reportsOf limit units = .ok reports ∧
        (d.render reports).toList.count '\n' =
          2 + (reports.map (·.unit)).toFinset.card +
            ((targets reports).toFinset.filter fun m => m ∉ reports.map (·.unit) ∧ m ≠ "-").card +
            (reports.flatMap (·.calls)).length ∧
        (d.render reports).toList.getLast? = some '\n' ∧
        Text.lines (d.render reports) = d.headerLine ::
          (ellipseLines reports ++ boxLines reports ++ d.callLines reports ++ ["\x7d"])) := by
  refine ⟨reportsOf_of_not_describable, fun hdescribable => ?_⟩
  obtain ⟨reports, hreports, htidy⟩ := reportsOf_of_describable hdescribable
  exact ⟨reports, hreports, count_lines_of_tidy hignored htidy⟩

/-- A call of an ignored module, and a call of a tuple that has an atom with a line break. -/
theorem count_lines_of_modules_break :
    let text := "module 'm' [] attributes [] 'f'/0 = fun () ->
      do call 'lists':'g' () call \x7b'a\nb'\x7d:'g' () end"
    ∃ m, Module.ofText none text = .ok m ∧ (∀ u ∈ standard.ignored, IsLine u) ∧
      ∃ reports, reportsOf stackLimit [m] = .ok reports ∧
        (standard.render reports).toList.count '\n' = 6 := by
  intro text
  let ignored : Ann Expr :=
    .plain (.call (.plain (.lit (.atom "lists"))) (.plain (.lit (.atom "g"))) [])
  let described : Ann Expr :=
    .plain (.call (.plain (.tuple [.plain (.lit (.atom "a\nb"))])) (.plain (.lit (.atom "g"))) [])
  let m : Ann Module :=
    .plain ⟨"m", [], [], [.plain ⟨⟨"f", 0⟩, .plain (.lambda [] (.plain (.seq ignored described)))⟩]⟩
  have hwords : wordsOfText text = some [keyword "module", ⟨.atom, "m"⟩, mark "[", mark "]",
      keyword "attributes", mark "[", mark "]", ⟨.atom, "f"⟩, mark "/", ⟨.integer, "0"⟩, mark "=",
      keyword "fun", mark "(", mark ")", mark "->", keyword "do", keyword "call", ⟨.atom, "lists"⟩,
      mark ":", ⟨.atom, "g"⟩, mark "(", mark ")", keyword "call", mark "\x7b", ⟨.atom, "a\nb"⟩,
      mark "\x7d", mark ":", ⟨.atom, "g"⟩, mark "(", mark ")", keyword "end"] := by
    decide +kernel
  have hread : Module.ofText none text = .ok m := by
    set_option maxRecDepth 10000 in
    exact (Reading.ofWords (d := nestingLimit) (c := .unit) hwords m rfl).read
  have hignored : ∀ u ∈ standard.ignored, IsLine u := by decide
  have htargets : m.node.targets =
      [⟨.lit (.atom "lists"), .lit (.atom "g"), 0⟩,
        ⟨.tuple [.plain (.lit (.atom "a\nb"))], .lit (.atom "g"), 0⟩] := rfl
  have hdescribable : m.node.Describable stackLimit := by
    rw [Module.describable_iff, htargets]
    rfl
  obtain ⟨reports, hreports, hcount, -⟩ := (count_lines_of_modules hignored stackLimit [m]).2
    (List.forall_mem_singleton.2 hdescribable)
  refine ⟨m, hread, hignored, reports, hreports, hcount.trans ?_⟩
  rw [reportsOf_cons, Module.report_of_describable hdescribable, htargets] at hreports
  cases hreports
  rfl

/-- A text is read of which there is nothing to draw. -/
theorem reportsOf_letChain :
    Module.ofText none (LetChain.text 1000) = .ok (.plain (LetChain.unit 1000)) ∧
      reportsOf stackLimit [.plain (LetChain.unit 1000)] = .error .tooDeep := by
  refine ⟨LetChain.ofText_text 1000 none, ?_⟩
  rw [reportsOf_cons]
  exact congrArg (· >>= _) (LetChain.report_unit (by decide) (by decide))

end Drawing

end CallGraph
