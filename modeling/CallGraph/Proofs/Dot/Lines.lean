import CallGraph.Proofs.Dot.Graph
import CallGraph.Proofs.LineBreaks

/-!
The lines of a drawing: the heading, a line for each ellipse, a line for each box, the lines of the
calls, and a closing brace. The heading names the graph unless its name is a keyword. The lines do
not depend on the order of the reports but for their own order.
-/

namespace CallGraph

open Text

namespace Dot

theorem isLine_quote (name : String) : IsLine (quote name) := by
  have hshown (c : Char) : '\n' ∉ shownChar c := by
    by_cases hescaped : c = '\\' ∨ c = '"'
    · rcases hescaped with rfl | rfl <;> decide
    · by_cases hbreak : c = '\n'
      · rw [hbreak]
        decide
      · rw [not_or] at hescaped
        simp [shownChar, hescaped, hbreak, Ne.symm hbreak]
  rw [quote, isLine_ofList, List.mem_append, List.mem_cons, List.mem_flatMap]
  rintro ((h | ⟨c, -, hc⟩) | h)
  · exact absurd h (by decide)
  · exact hshown c hc
  · exact absurd h (by decide)

theorem isLine_identifier (name : String) : IsLine (identifier name) := by
  rw [identifier]
  split
  case isTrue hword =>
    rw [isWord] at hword
    split at hword
    case h_1 c cs hchars =>
      rw [Bool.and_eq_true, List.all_eq_true] at hword
      rw [IsLine, hchars, List.mem_cons]
      rintro (rfl | hmem)
      · exact absurd hword.1 (by decide)
      · exact absurd (hword.2 '\n' hmem) (by decide)
    case h_2 => cases hword
  case isFalse => exact isLine_quote name

theorem mem_openMarks {c : Char} (hc : c ≠ ' ') (cs : List Char) : c ∈ openMarks cs ↔ c ∈ cs := by
  fun_induction openMarks cs with
  | case1 cs ih => simp [ih, hc]
  | case2 c' cs hmark ih => rw [List.mem_cons, List.mem_cons, ih]
  | case3 => exact Iff.rfl

theorem isLine_comment {text : String} (htext : IsLine text) : IsLine (comment text) := by
  have hmarks : IsLine (String.ofList (openMarks text.toList)) := by
    rw [isLine_ofList, mem_openMarks (by decide)]
    exact htext
  rw [comment, isLine_append, isLine_append]
  exact ⟨⟨by decide, hmarks⟩, by decide⟩

/-! ## Reserved words -/

/-- The names that are keywords if they stand without quotes. -/
def Reserved (name : String) : Prop := String.ofList (name.toList.map Char.toLower) ∈ keywords

instance (name : String) : Decidable (Reserved name) :=
  inferInstanceAs (Decidable (_ ∈ keywords))

theorem ofWord_toList (name : String) :
    ofWord name.toList = if Reserved name then .keyword name else .name name := by
  rw [ofWord, String.ofList_toList]
  rfl

theorem isAlpha_of_isAlpha_toLower {c : Char} (h : c.toLower.isAlpha = true) :
    c.isAlpha = true := by
  by_cases hrange : c.val ≥ 'A'.val ∧ c.val ≤ 'Z'.val
  · have hupper : c.isUpper = true := decide_eq_true hrange
    exact Bool.or_eq_true_iff.2 (.inl hupper)
  · have hsame : c.toLower = c := dif_neg hrange
    rwa [hsame] at h

/-- The keywords consist of letters, so a name that is one of them is not quoted. -/
theorem isWord_of_reserved {name : String} (h : Reserved name) : isWord name = true := by
  have hletters : ∀ word ∈ keywords, word ≠ "" ∧ word.toList.all Char.isAlpha = true := by decide
  obtain ⟨hne, halpha⟩ := hletters _ h
  rw [String.toList_ofList, List.all_eq_true, List.forall_mem_map] at halpha
  rw [isWord]
  split
  case h_1 c cs hchars =>
    rw [hchars] at halpha
    obtain ⟨hc, hcs⟩ := List.forall_mem_cons.1 halpha
    rw [Bool.and_eq_true, List.all_eq_true]
    refine ⟨by rw [isAlpha_of_isAlpha_toLower hc, Bool.true_or], fun c' hc' => ?_⟩
    have halphanum : c'.isAlphanum = true :=
      Bool.or_eq_true_iff.2 (.inl (isAlpha_of_isAlpha_toLower (hcs c' hc')))
    rw [halphanum, Bool.true_or]
  case h_2 hchars =>
    rw [hchars] at hne
    exact absurd rfl hne

end Dot

namespace Drawing

/-! ## What the lines are -/

def headerLine (d : Drawing) : String := "digraph " ++ Dot.identifier d.name ++ " \x7b"

def ellipseLines (reports : List Report) : List String :=
  (units reports).map fun u => "\t" ++ Dot.quote u ++ " [shape=ellipse]"

def boxLines (reports : List Report) : List String :=
  (externals reports).map fun m => "\t" ++ Dot.quote m ++ " [shape=box]"

/-- The edges and comments, one for each call. -/
def callLines (d : Drawing) (reports : List Report) : List String :=
  reports.flatMap fun r => r.calls.map fun c => "\t" ++ d.callLine r.unit c

theorem lines_eq (d : Drawing) (reports : List Report) :
    d.lines reports = d.headerLine ::
      (ellipseLines reports ++ boxLines reports ++ d.callLines reports ++ ["\x7d"]) := by
  rw [lines, List.append_assoc, List.append_assoc, List.append_assoc, List.append_assoc,
    List.append_assoc]
  rfl

theorem render_eq_ended (d : Drawing) (reports : List Report) :
    d.render reports = ended (d.lines reports) := rfl

theorem isLine_headerLine (d : Drawing) : IsLine d.headerLine := by
  rw [headerLine, isLine_append, isLine_append]
  exact ⟨⟨by decide, Dot.isLine_identifier d.name⟩, by decide⟩

/-- A line with a quoted name. -/
theorem isLine_declaration (name : String) {rest : String} (hrest : IsLine rest) :
    IsLine ("\t" ++ Dot.quote name ++ rest) := by
  rw [isLine_append, isLine_append]
  exact ⟨⟨by decide, Dot.isLine_quote name⟩, hrest⟩

theorem isLine_of_mem_ellipseLines {reports : List Report} {l : String}
    (hl : l ∈ ellipseLines reports) : IsLine l := by
  obtain ⟨u, -, rfl⟩ := List.mem_map.1 hl
  exact isLine_declaration u (by decide)

theorem isLine_of_mem_boxLines {reports : List Report} {l : String} (hl : l ∈ boxLines reports) :
    IsLine l := by
  obtain ⟨m, -, rfl⟩ := List.mem_map.1 hl
  exact isLine_declaration m (by decide)

/-- The lines as they are in the text. Only a comment can be cut into several. -/
theorem lines_render (d : Drawing) (reports : List Report) :
    Text.lines (d.render reports) = d.headerLine ::
      (ellipseLines reports ++ boxLines reports ++ (d.callLines reports).flatMap pieces ++
        ["\x7d"]) := by
  have hellipses := flatMap_pieces fun l (hl : l ∈ ellipseLines reports) =>
    isLine_of_mem_ellipseLines hl
  have hboxes := flatMap_pieces fun l (hl : l ∈ boxLines reports) => isLine_of_mem_boxLines hl
  have hclose : ["\x7d"].flatMap pieces = ["\x7d"] := flatMap_pieces (by decide)
  rw [render_eq_ended, lines_ended, lines_eq, List.flatMap_cons, List.flatMap_append,
    List.flatMap_append, List.flatMap_append, hellipses, hboxes, hclose,
    pieces_of_isLine d.isLine_headerLine, List.singleton_append]

/-! ## The heading -/

theorem heading_eq (d : Drawing) :
    d.heading = if Dot.Reserved d.name then .keyword d.name else .name d.name := by
  rw [heading, Dot.ofWord_toList]
  by_cases hreserved : Dot.Reserved d.name
  · rw [if_pos (Dot.isWord_of_reserved hreserved)]
  · rw [if_neg hreserved, ite_self]

theorem symbols_headerLine (d : Drawing) :
    Dot.symbols d.headerLine = some [.keyword "digraph", d.heading, .openBrace] := by
  have hdigraph : Dot.Reads .apart "digraph ".toList .apart [.keyword "digraph"] := rfl
  have hread := hdigraph.append d.reads_opening
  rw [← String.toList_append, ← String.append_assoc, Dot.Reads] at hread
  rw [Dot.symbols, headerLine, hread, Option.bind_some, Dot.Mode.finish, Option.map_some,
    List.append_nil, List.singleton_append]

/-- A keyword is a word, and a word is not quoted. So the first line is the heading of a graph with
the name unless the name is a keyword, in any letter case: then that is read instead. -/
theorem header_reads_back_iff (d : Drawing) (reports : List Report) :
    ∃ header rest, Text.lines (d.render reports) = header :: rest ∧
      header = "digraph " ++ Dot.identifier d.name ++ " \x7b" ∧
      (Dot.symbols header = some [.keyword "digraph", .name d.name, .openBrace] ↔
        ¬ Dot.Reserved d.name) ∧
      Dot.symbols header = some [.keyword "digraph",
        if Dot.Reserved d.name then .keyword d.name else .name d.name, .openBrace] := by
  refine ⟨d.headerLine, _, lines_render d reports, rfl, ?_, ?_⟩
  · rw [symbols_headerLine, heading_eq]
    by_cases hreserved : Dot.Reserved d.name
    · simp [hreserved]
    · simp [hreserved]
  · rw [symbols_headerLine, heading_eq]

/-- A graph with the name of a keyword. -/
theorem symbols_header_graph :
    (Drawing.mk "graph" []).render [] = "digraph graph \x7b\n\x7d\n" ∧
    Dot.symbols "digraph graph \x7b" ≠
      some [.keyword "digraph", .name "graph", .openBrace] := by
  decide

/-! ## Reports in another order -/

section Reordered

variable {reports reports' : List Report} (h : reports.Perm reports')
include h

theorem units_perm : (units reports).Perm (units reports') := by
  rw [units_eq_firstSeen, units_eq_firstSeen,
    List.perm_ext_iff_of_nodup (nodup_firstSeen _ _) (nodup_firstSeen _ _)]
  intro u
  rw [mem_firstSeen, mem_firstSeen, (h.map (·.unit)).mem_iff]

/-- Which modules are boxes depends on all units, wherever they stand. -/
theorem externals_perm : (externals reports).Perm (externals reports') := by
  have htargets : (targets reports).Perm (targets reports') := h.flatMap_right _
  rw [externals_eq_firstSeen, externals_eq_firstSeen,
    List.perm_ext_iff_of_nodup (nodup_firstSeen _ _) (nodup_firstSeen _ _)]
  intro m
  rw [mem_firstSeen, mem_firstSeen, htargets.mem_iff, List.mem_cons, List.mem_cons,
    (units_perm h).mem_iff]

/-- The first and the last line stay, and the others are put in another order: the ellipses among
themselves, the boxes among themselves, and the edges and comments among themselves. -/
theorem lines_of_reordered_reports (d : Drawing) :
    (∃ middle middle', Text.lines (d.render reports) = d.headerLine :: (middle ++ ["\x7d"]) ∧
      Text.lines (d.render reports') = d.headerLine :: (middle' ++ ["\x7d"]) ∧
      middle.Perm middle') ∧
    (Text.lines (d.render reports)).Perm (Text.lines (d.render reports')) ∧
    (ellipseLines reports).Perm (ellipseLines reports') ∧
    (boxLines reports).Perm (boxLines reports') ∧
    (d.callLines reports).Perm (d.callLines reports') := by
  have hellipses : (ellipseLines reports).Perm (ellipseLines reports') := (units_perm h).map _
  have hboxes : (boxLines reports).Perm (boxLines reports') := (externals_perm h).map _
  have hcalls : (d.callLines reports).Perm (d.callLines reports') := h.flatMap_right _
  have hmiddle := (hellipses.append hboxes).append (hcalls.flatMap_right pieces)
  rw [lines_render, lines_render]
  exact ⟨⟨_, _, rfl, rfl, hmiddle⟩, (hmiddle.append_right _).cons _, hellipses, hboxes, hcalls⟩

end Reordered

/-- Two reports have the same unit, and the description of a call has a line break. -/
theorem lines_of_reordered_reports_repeated :
    let first : Report := ⟨"a", [.static "b" "f" 0, .unimplemented "x\ny"]⟩
    let second : Report := ⟨"b", [.static "c" "g" 1]⟩
    let third : Report := ⟨"a", [.static "b" "f" 0]⟩
    [first, second, third].Perm [third, first, second] ∧
      (Text.lines (standard.render [first, second, third])).Perm
        (Text.lines (standard.render [third, first, second])) := by
  intro first second third
  have hperm : [first, second, third].Perm [third, first, second] := by decide
  exact ⟨hperm, (lines_of_reordered_reports hperm standard).2.1⟩

end Drawing

end CallGraph
