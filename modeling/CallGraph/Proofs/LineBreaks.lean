/-!
Texts and their lines. A text that is made of lines, with a line break after each, is cut into these
lines and has as many line breaks.
-/

namespace CallGraph.Text

/-! ## Texts on one line -/

/-- A text without a line break. -/
def IsLine (s : String) : Prop := '\n' ∉ s.toList

instance (s : String) : Decidable (IsLine s) := inferInstanceAs (Decidable ('\n' ∉ s.toList))

theorem isLine_append {s t : String} : IsLine (s ++ t) ↔ IsLine s ∧ IsLine t := by
  rw [IsLine, String.toList_append, List.mem_append, not_or]
  rfl

theorem isLine_ofList {cs : List Char} : IsLine (String.ofList cs) ↔ '\n' ∉ cs := by
  rw [IsLine, String.toList_ofList]

theorem isLine_intercalate {sep : String} (hsep : IsLine sep) {items : List String}
    (hitems : ∀ s ∈ items, IsLine s) : IsLine (String.intercalate sep items) := by
  induction items with
  | nil => exact List.not_mem_nil
  | cons s items ih =>
    obtain ⟨hs, hitems⟩ := List.forall_mem_cons.1 hitems
    by_cases hnil : items = []
    · rw [hnil, String.intercalate_singleton]
      exact hs
    · rw [String.intercalate_cons_of_ne_nil hnil, isLine_append, isLine_append]
      exact ⟨⟨hs, hsep⟩, ih hitems⟩

/-! ## The lines of a text -/

/-- What stands between the line breaks of a text. -/
def pieces (s : String) : List String := (s.toList.splitOn '\n').map String.ofList

/-- The lines of a text, without the line break that ends each of them. What stands after the last
line break is not a line. -/
def lines (s : String) : List String := (pieces s).dropLast

theorem pieces_ne_nil (s : String) : pieces s ≠ [] := by
  rw [pieces, Ne, List.map_eq_nil_iff]
  exact List.splitOn_ne_nil _ _

theorem pieces_of_isLine {s : String} (hs : IsLine s) : pieces s = [s] := by
  rw [pieces, List.splitOn_eq_singleton hs, List.map_singleton, String.ofList_toList]

theorem flatMap_pieces {ls : List String} (hls : ∀ l ∈ ls, IsLine l) : ls.flatMap pieces = ls := by
  induction ls with
  | nil => rfl
  | cons l ls ih =>
    obtain ⟨hl, hls⟩ := List.forall_mem_cons.1 hls
    rw [List.flatMap_cons, pieces_of_isLine hl, ih hls, List.singleton_append]

theorem pieces_append (s t : String) : pieces (s ++ "\n" ++ t) = pieces s ++ pieces t := by
  have hchars : (s ++ "\n" ++ t).toList = s.toList ++ '\n' :: t.toList := by
    rw [String.toList_append, String.toList_append, List.append_assoc]
    rfl
  rw [pieces, hchars, List.splitOn_append_cons_self, List.map_append]
  rfl

/-- The text with these lines. -/
def ended (ls : List String) : String := String.join (ls.map (· ++ "\n"))

theorem ended_cons (l : String) (ls : List String) : ended (l :: ls) = l ++ "\n" ++ ended ls := by
  rw [ended, List.map_cons, String.join_cons]
  rfl

/-- A text is cut where its lines end, and where a line has line breaks of its own. -/
theorem lines_ended (ls : List String) : lines (ended ls) = ls.flatMap pieces := by
  induction ls with
  | nil => rfl
  | cons l ls ih =>
    rw [lines, ended_cons, pieces_append, List.dropLast_append_of_ne_nil (pieces_ne_nil _),
      List.flatMap_cons, ← ih]
    rfl

theorem count_ended {ls : List String} (hls : ∀ l ∈ ls, IsLine l) :
    (ended ls).toList.count '\n' = ls.length := by
  induction ls with
  | nil => rfl
  | cons l ls ih =>
    obtain ⟨hl, hls⟩ := List.forall_mem_cons.1 hls
    have hbreak : "\n".toList.count '\n' = 1 := rfl
    rw [ended_cons, String.toList_append, String.toList_append, List.count_append,
      List.count_append, List.count_eq_zero_of_not_mem hl, hbreak, ih hls, List.length_cons]
    omega

theorem getLast?_ended {ls : List String} (hls : ls ≠ []) :
    (ended ls).toList.getLast? = some '\n' := by
  induction ls with
  | nil => exact absurd rfl hls
  | cons l ls ih =>
    rw [ended_cons, String.toList_append, String.toList_append]
    cases ls with
    | nil =>
      have hnil : (ended []).toList = [] := rfl
      rw [hnil, List.append_nil, List.getLast?_append]
      rfl
    | cons l' ls => rw [List.getLast?_append, ih (List.cons_ne_nil _ _), Option.some_or]

end CallGraph.Text
