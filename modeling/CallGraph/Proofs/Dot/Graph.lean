import CallGraph.Proofs.Dot.Reading
import Mathlib.Data.List.Nodup

/-!
What a drawing says. Its text is read as the statements of the graph: a node for each unit, a node
for each other module that is called, and an edge for each call that is drawn. No name or
description, whatever its characters are, makes another statement.
-/

namespace CallGraph

/-- The names that are not among those seen before, each where it comes first. -/
def firstSeen (seen : List String) : List String → List String
  | [] => []
  | x :: xs => if x ∈ seen then firstSeen seen xs else x :: firstSeen (x :: seen) xs

theorem eraseDups_filter_eq_firstSeen (seen xs : List String) :
    (xs.filter (· ∉ seen)).eraseDups = firstSeen seen xs := by
  induction xs generalizing seen with
  | nil => rfl
  | cons x xs ih =>
    by_cases hx : x ∈ seen
    · rw [List.filter_cons_of_neg (by simpa using hx), ih, firstSeen, if_pos hx]
    · rw [List.filter_cons_of_pos (by simpa using hx), List.eraseDups_cons, List.filter_filter,
        firstSeen, if_neg hx, ← ih (x :: seen)]
      congr 3
      funext y
      by_cases hy : y = x
      · simp [hy]
      · simp [hy]

theorem mem_firstSeen {seen xs : List String} {x : String} :
    x ∈ firstSeen seen xs ↔ x ∈ xs ∧ x ∉ seen := by
  rw [← eraseDups_filter_eq_firstSeen, List.mem_eraseDups, List.mem_filter, decide_eq_true_iff]

theorem nodup_firstSeen (seen xs : List String) : (firstSeen seen xs).Nodup := by
  induction xs generalizing seen with
  | nil => exact List.nodup_nil
  | cons x xs ih =>
    rw [firstSeen]
    split
    · exact ih seen
    · rw [List.nodup_cons, mem_firstSeen]
      exact ⟨fun h => h.2 List.mem_cons_self, ih (x :: seen)⟩

namespace Dot

/-- The symbols of attributes, of which there are none or one. -/
def attributeSymbols : List (String × String) → List Symbol
  | [(key, value)] => [.openBracket, .name key, .equals, .name value, .closeBracket]
  | _ => []

namespace Statement

def attributes : Statement → List (String × String)
  | .node _ attributes | .edge _ _ attributes => attributes

def symbols : Statement → List Symbol
  | .node a attributes => .name a :: attributeSymbols attributes
  | .edge a b attributes => .name a :: .arrow :: .name b :: attributeSymbols attributes

/-- The name of the node that a statement declares. -/
def declared? : Statement → Option String
  | .node a _ => some a
  | .edge .. => none

end Statement

/-- A statement ends where the next one begins, or where there is none. -/
theorem statements_append {st : Statement} (hst : st.attributes.length ≤ 1) {rest : List Symbol}
    (hrest : rest = [] ∨ ∃ a rest', rest = .name a :: rest') :
    statements (st.symbols ++ rest) = (statements rest).map (st :: ·) := by
  rcases st with ⟨a, _ | ⟨⟨k, v⟩, _ | _⟩⟩ | ⟨a, b, _ | ⟨⟨k, v⟩, _ | _⟩⟩
  case node.cons.cons | edge.cons.cons => simp [Statement.attributes] at hst
  all_goals
    rcases hrest with rfl | ⟨c, rest', rfl⟩
    all_goals simp [Statement.symbols, attributeSymbols, statements]

theorem statements_flatMap {sts : List Statement} (h : ∀ st ∈ sts, st.attributes.length ≤ 1) :
    statements (sts.flatMap Statement.symbols) = some sts := by
  induction sts with
  | nil => rfl
  | cons st sts ih =>
    obtain ⟨hst, hsts⟩ := List.forall_mem_cons.1 h
    have hrest : sts.flatMap Statement.symbols = [] ∨
        ∃ a rest, sts.flatMap Statement.symbols = .name a :: rest := by
      cases sts with
      | nil => exact .inl rfl
      | cons st' sts =>
        rw [List.flatMap_cons]
        cases st' with
        | node a _ => exact .inr ⟨a, _, rfl⟩
        | edge a _ _ => exact .inr ⟨a, _, rfl⟩
    rw [List.flatMap_cons, statements_append hst hrest, ih hsts, Option.map_some]

end Dot

namespace Drawing

/-! ## The statements of a drawing -/

def ellipse (unit : String) : Dot.Statement := .node unit [("shape", "ellipse")]

def box (unit : String) : Dot.Statement := .node unit [("shape", "box")]

/-- The edge of a call that `unit` makes. A call of a module that is ignored has none, and neither
has one that goes to something else than an atom or a variable. -/
def edge? (d : Drawing) (unit : String) : Call → Option Dot.Statement
  | .static m _ _ => if m ∈ d.ignored then none else some (.edge unit m [])
  | .dynFunction m _ _ =>
    if m ∈ d.ignored then none else some (.edge unit m [("arrowhead", "dot")])
  | .dynModule v _ _ => some (.edge unit v [])
  | .dynAll v _ _ => some (.edge unit v [("arrowhead", "dot")])
  | .unimplemented _ => none

/-- The modules that calls name, one for each such call. -/
def targets (reports : List Report) : List String :=
  reports.flatMap fun r => r.calls.filterMap Call.literalModule

/-- The units, then the other modules that calls name, then the edges. The name `-` is that of no
module. -/
def statements (d : Drawing) (reports : List Report) : List Dot.Statement :=
  let units := firstSeen [] (reports.map (·.unit))
  units.map ellipse ++ (firstSeen ("-" :: units) (targets reports)).map box ++
    reports.flatMap fun r => r.calls.filterMap (d.edge? r.unit)

theorem units_eq_firstSeen (reports : List Report) :
    units reports = firstSeen [] (reports.map (·.unit)) := by
  rw [← eraseDups_filter_eq_firstSeen, List.filter_eq_self.2 (by simp), units]

theorem externals_eq_firstSeen (reports : List Report) :
    externals reports = firstSeen ("-" :: units reports) (targets reports) := by
  rw [← eraseDups_filter_eq_firstSeen, externals, targets]
  congr 2
  funext m
  simp [placeholders, Bool.and_comm]

/-! ## Reading the lines -/

section Lines

open Dot

/-- A piece of text between a tabulator and a line break. -/
theorem reads_line {text : String} {ss : List Symbol} (h : Reads .apart text.toList .apart ss) :
    Reads .apart ("\t" ++ text ++ "\n").toList .apart ss := by
  have htab : Reads .apart "\t".toList .apart [] := rfl
  have hbreak : Reads .apart "\n".toList .apart [] := rfl
  rw [String.toList_append, String.toList_append, ← List.append_nil ss]
  exact (htab.append h).append hbreak

theorem reads_ellipse (unit : String) :
    Reads .apart (quote unit ++ " [shape=ellipse]").toList .apart
      ([ellipse unit].flatMap Statement.symbols) := by
  have hshape : Reads .apart " [shape=ellipse]".toList .apart
      (attributeSymbols [("shape", "ellipse")]) := rfl
  rw [String.toList_append]
  exact (reads_quote unit).append hshape

theorem reads_box (unit : String) :
    Reads .apart (quote unit ++ " [shape=box]").toList .apart
      ([box unit].flatMap Statement.symbols) := by
  have hshape : Reads .apart " [shape=box]".toList .apart (attributeSymbols [("shape", "box")]) :=
    rfl
  rw [String.toList_append]
  exact (reads_quote unit).append hshape

theorem reads_edge (unit target : String) :
    Reads .apart (quote unit ++ " -> " ++ quote target).toList .apart
      (Statement.edge unit target []).symbols := by
  have harrow : Reads .apart " -> ".toList .apart [.arrow] := rfl
  rw [String.toList_append, String.toList_append]
  exact ((reads_quote unit).append harrow).append (reads_quote target)

theorem reads_dottedEdge (unit target : String) :
    Reads .apart (quote unit ++ " -> " ++ quote target ++ " [arrowhead=dot]").toList .apart
      (Statement.edge unit target [("arrowhead", "dot")]).symbols := by
  have hhead : Reads .apart " [arrowhead=dot]".toList .apart
      (attributeSymbols [("arrowhead", "dot")]) := rfl
  rw [String.toList_append]
  exact (reads_edge unit target).append hhead

/-- The line of a call that names a module: a comment if the module is ignored, and an edge
otherwise. -/
theorem callLine_of_literalModule (d : Drawing) (unit : String) {c : Call} {m : String}
    (hc : c.literalModule = some m) :
    d.callLine unit c =
      if m ∈ d.ignored then comment ("ignored call to " ++ m)
      else if c.isDotted then quote unit ++ " -> " ++ quote m ++ " [arrowhead=dot]"
      else quote unit ++ " -> " ++ quote m := by
  have hignores : d.ignores (some m) = decide (m ∈ d.ignored) := List.contains_eq_mem m d.ignored
  cases c with
  | static | dynFunction =>
    cases hc
    by_cases hm : m ∈ d.ignored
    · rw [if_pos hm]
      exact if_pos (hignores.trans (decide_eq_true hm))
    · rw [if_neg hm]
      exact if_neg (Bool.eq_false_iff.1 (hignores.trans (decide_eq_false hm)))
  | dynModule | dynAll | unimplemented => cases hc

/-- The line of a call is read as its edge, or as nothing. -/
theorem reads_callLine (d : Drawing) (unit : String) (c : Call) :
    Reads .apart (d.callLine unit c).toList .apart
      ((d.edge? unit c).toList.flatMap Statement.symbols) := by
  cases c with
  | static m f n =>
    rw [callLine_of_literalModule d unit rfl, edge?]
    split
    · exact reads_comment _
    · rw [Option.toList_some, List.flatMap_singleton]
      exact reads_edge unit m
  | dynFunction m v n =>
    rw [callLine_of_literalModule d unit rfl, edge?]
    split
    · exact reads_comment _
    · rw [Option.toList_some, List.flatMap_singleton]
      exact reads_dottedEdge unit m
  | dynModule v f n =>
    rw [edge?, Option.toList_some, List.flatMap_singleton]
    exact reads_edge unit v
  | dynAll v w n =>
    rw [edge?, Option.toList_some, List.flatMap_singleton]
    exact reads_dottedEdge unit v
  | unimplemented description => exact reads_comment _

/-- The name of the graph: a name if it is in quotes, and what the word is otherwise. -/
def heading (d : Drawing) : Symbol := if isWord d.name then ofWord d.name.toList else .name d.name

theorem reads_opening (d : Drawing) :
    Reads .apart (identifier d.name ++ " \x7b").toList .apart [d.heading, .openBrace] := by
  rw [String.toList_append]
  by_cases hword : isWord d.name
  · have hend : Reads (.word d.name.toList.reverse) " \x7b".toList .apart
        [ofWord d.name.toList.reverse.reverse, .openBrace] := rfl
    rw [List.reverse_reverse] at hend
    rw [identifier, if_pos hword, heading, if_pos hword]
    exact (reads_word hword).append hend
  · have hend : Reads .apart " \x7b".toList .apart [.openBrace] := rfl
    rw [identifier, if_neg hword, heading, if_neg hword]
    exact (reads_quote d.name).append hend

theorem reads_identifier (d : Drawing) :
    Reads .apart (identifier d.name ++ " \x7b\n").toList .apart [d.heading, .openBrace] := by
  have hbrace : " \x7b\n" = " \x7b" ++ "\n" := rfl
  have hbreak : Reads .apart "\n".toList .apart [] := rfl
  rw [hbrace, ← String.append_assoc, String.toList_append]
  exact (reads_opening d).append hbreak

/-- Lines that are read as statements each are read as these statements together. -/
theorem reads_lines {α : Type} (xs : List α) {line : α → String} {sts : α → List Statement}
    (h : ∀ x ∈ xs, Reads .apart (line x).toList .apart ((sts x).flatMap Statement.symbols)) :
    Reads .apart (xs.flatMap fun x => ("\t" ++ line x ++ "\n").toList) .apart
      ((xs.flatMap sts).flatMap Statement.symbols) := by
  rw [List.flatMap_assoc]
  exact Reads.flatMap xs fun x hx => reads_line (h x hx)

/-- The text, line by line. -/
theorem toList_render (d : Drawing) (reports : List Report) :
    (d.render reports).toList =
      "digraph ".toList ++ (identifier d.name ++ " \x7b\n").toList ++
      (((units reports).flatMap (fun u => ("\t" ++ (quote u ++ " [shape=ellipse]") ++ "\n").toList) ++
        (externals reports).flatMap (fun m => ("\t" ++ (quote m ++ " [shape=box]") ++ "\n").toList) ++
        reports.flatMap fun r => r.calls.flatMap fun c =>
          ("\t" ++ d.callLine r.unit c ++ "\n").toList) ++
      ("\x7d" ++ "\n").toList) := by
  have hbrace : " \x7b\n" = " \x7b" ++ "\n" := rfl
  rw [render, String.toList_join, List.flatMap_map, lines, hbrace, ← String.toList_append]
  simp only [List.flatMap_append, List.flatMap_map, List.flatMap_singleton, List.flatMap_assoc,
    List.append_assoc, String.append_assoc]

theorem flatMap_symbols_statements (d : Drawing) (reports : List Report) :
    (d.statements reports).flatMap Statement.symbols =
      ((units reports).flatMap (fun u => [ellipse u])).flatMap Statement.symbols ++
      ((externals reports).flatMap (fun m => [box m])).flatMap Statement.symbols ++
      reports.flatMap fun r =>
        (r.calls.flatMap fun c => (d.edge? r.unit c).toList).flatMap Statement.symbols := by
  rw [statements, ← units_eq_firstSeen, ← externals_eq_firstSeen]
  simp only [List.flatMap_append, List.map_eq_flatMap, List.filterMap_eq_flatMap_toList,
    List.flatMap_assoc]

/-- The text of a drawing is read as a graph with its statements, whatever the names are. -/
theorem reads_render (d : Drawing) (reports : List Report) :
    Reads .apart (d.render reports).toList .apart
      (.keyword "digraph" :: d.heading :: .openBrace ::
        ((d.statements reports).flatMap Statement.symbols ++ [.closeBrace])) := by
  have hunits := reads_lines (units reports) fun u _ => reads_ellipse u
  have hexternals := reads_lines (externals reports) fun m _ => reads_box m
  have hcalls := Reads.flatMap reports fun r _ =>
    reads_lines r.calls fun c _ => reads_callLine d r.unit c
  have hdigraph : Reads .apart "digraph ".toList .apart [.keyword "digraph"] := rfl
  have hheading := hdigraph.append (reads_identifier d)
  have hclose : Reads .apart ("\x7d" ++ "\n").toList .apart [.closeBrace] := rfl
  rw [toList_render, flatMap_symbols_statements]
  exact hheading.append (((hunits.append hexternals).append hcalls).append hclose)

end Lines

/-! ## The graph -/

theorem edge?_eq_some {d : Drawing} {unit : String} {c : Call} {st : Dot.Statement}
    (h : d.edge? unit c = some st) :
    ∃ target attributes, st = .edge unit target attributes ∧ attributes.length ≤ 1 := by
  cases c with
  | static m f n =>
    rw [edge?, Option.ite_none_left_eq_some] at h
    obtain ⟨-, ⟨⟩⟩ := h
    exact ⟨m, [], rfl, Nat.zero_le 1⟩
  | dynFunction m v n =>
    rw [edge?, Option.ite_none_left_eq_some] at h
    obtain ⟨-, ⟨⟩⟩ := h
    exact ⟨m, [("arrowhead", "dot")], rfl, Nat.le_refl 1⟩
  | dynModule v f n =>
    cases h
    exact ⟨v, [], rfl, Nat.zero_le 1⟩
  | dynAll v w n =>
    cases h
    exact ⟨v, [("arrowhead", "dot")], rfl, Nat.le_refl 1⟩
  | unimplemented description => cases h

theorem length_attributes_le_one {d : Drawing} {reports : List Report} {st : Dot.Statement}
    (hst : st ∈ d.statements reports) : st.attributes.length ≤ 1 := by
  simp only [statements, List.mem_append, List.mem_map, List.mem_flatMap, List.mem_filterMap]
    at hst
  rcases hst with (⟨u, -, rfl⟩ | ⟨m, -, rfl⟩) | ⟨r, -, c, -, hc⟩
  · exact Nat.le_refl 1
  · exact Nat.le_refl 1
  · obtain ⟨target, attributes, rfl, hlength⟩ := edge?_eq_some hc
    exact hlength

/-- The names of the nodes: the units, and then the other modules. -/
theorem filterMap_declared? (d : Drawing) (reports : List Report) :
    (d.statements reports).filterMap Dot.Statement.declared? =
      units reports ++ firstSeen ("-" :: units reports) (targets reports) := by
  have hedges : (reports.flatMap fun r => r.calls.filterMap (d.edge? r.unit)).filterMap
      Dot.Statement.declared? = [] := by
    rw [List.filterMap_eq_nil_iff]
    intro st hst
    simp only [List.mem_flatMap, List.mem_filterMap] at hst
    obtain ⟨r, -, c, -, hc⟩ := hst
    obtain ⟨target, attributes, rfl, -⟩ := edge?_eq_some hc
    rfl
  rw [statements, ← units_eq_firstSeen]
  simp only [List.filterMap_append, List.filterMap_map, hedges, List.append_nil]
  exact congrArg₂ (· ++ ·) List.filterMap_some List.filterMap_some

theorem nodup_declared (d : Drawing) (reports : List Report) :
    ((d.statements reports).filterMap Dot.Statement.declared?).Nodup := by
  rw [filterMap_declared?, List.nodup_append]
  refine ⟨?_, nodup_firstSeen _ _, ?_⟩
  · rw [units_eq_firstSeen]
    exact nodup_firstSeen _ _
  · rintro u hu m hm rfl
    exact (mem_firstSeen.1 hm).2 (List.mem_cons_of_mem _ hu)

/-- Each module that a call names is a node, unless it is `-`. -/
theorem mem_declared {d : Drawing} {reports : List Report} {r : Report} (hr : r ∈ reports)
    {c : Call} (hc : c ∈ r.calls) {m : String} (hm : c.literalModule = some m) (hne : m ≠ "-") :
    m ∈ (d.statements reports).filterMap Dot.Statement.declared? := by
  rw [filterMap_declared?, List.mem_append, mem_firstSeen]
  by_cases hunit : m ∈ units reports
  · exact .inl hunit
  · refine .inr ⟨List.mem_flatMap.2 ⟨r, hr, List.mem_filterMap.2 ⟨c, hc, hm⟩⟩, ?_⟩
    exact List.not_mem_cons_of_ne_of_not_mem hne hunit

/-- The text of a drawing is read as one graph, and its statements are those of the drawing. No
node is declared twice, and each module that a call names is declared once. -/
theorem symbols_render (d : Drawing) (reports : List Report) :
    (∃ body, Dot.symbols (d.render reports) =
        some (.keyword "digraph" :: d.heading :: .openBrace :: (body ++ [.closeBrace])) ∧
      Dot.statements body = some (d.statements reports)) ∧
    ((d.statements reports).filterMap Dot.Statement.declared?).Nodup ∧
    ∀ r ∈ reports, ∀ c ∈ r.calls, ∀ m, c.literalModule = some m → m ≠ "-" →
      ((d.statements reports).filterMap Dot.Statement.declared?).count m = 1 := by
  have hnodup := nodup_declared d reports
  refine ⟨⟨(d.statements reports).flatMap Dot.Statement.symbols, ?_, ?_⟩, hnodup, ?_⟩
  · have hread := reads_render d reports
    rw [Dot.Reads] at hread
    rw [Dot.symbols, hread, Option.bind_some, Dot.Mode.finish, Option.map_some, List.append_nil]
  · exact Dot.statements_flatMap fun st hst => length_attributes_le_one hst
  · intro r hr c hc m hm hne
    exact List.count_eq_one_of_mem hnodup (mem_declared hr hc hm hne)

/-- A unit whose name looks like an edge calls a module whose name ends a comment. Three nodes
and one edge are read. -/
theorem symbols_render_edgeLikeName :
    let reports : List Report :=
      [⟨"a\" -> \"b", [.static "lists" "map" 2, .unimplemented "*/ x", .dynFunction "*/" "F" 0]⟩]
    standard.statements reports =
      [.node "a\" -> \"b" [("shape", "ellipse")], .node "lists" [("shape", "box")],
        .node "*/" [("shape", "box")], .edge "a\" -> \"b" "*/" [("arrowhead", "dot")]] ∧
    ((standard.statements reports).filterMap Dot.Statement.declared?).count "*/" = 1 :=
  ⟨by decide, (symbols_render standard _).2.2 _ List.mem_cons_self (.dynFunction "*/" "F" 0)
    (List.mem_cons_of_mem _ (List.mem_cons_of_mem _ List.mem_cons_self)) "*/" rfl (by decide)⟩

end Drawing

end CallGraph
