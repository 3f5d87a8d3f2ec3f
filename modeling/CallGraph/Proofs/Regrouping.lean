import CallGraph.Proofs.Transform

/-!
Lists in trees, grouped in another way. The tail of a list can be a list itself, and the two write
what one longer list writes. Trees are the same when they are grouped in the same way.
-/

namespace CallGraph

namespace Transform

theorem join_append {α : Type} (cells : α → Option (List α × Option α)) (xs ys : List α)
    (tail : Option α) :
    join cells (xs ++ ys) tail = (xs ++ (join cells ys tail).1, (join cells ys tail).2) := by
  rw [join, join]
  split
  · rw [List.append_assoc]
  · rfl

theorem join_ne_nil {α : Type} (cells : α → Option (List α × Option α)) {xs : List α}
    (h : xs ≠ []) (tail : Option α) : (join cells xs tail).1 ≠ [] := by
  rw [join]
  split
  · exact List.append_ne_nil_of_left_ne_nil h _
  · exact h

/-- The elements and the tail of a list, with those of its tail, given what becomes of each. -/
def joined {α : Type} (cells : α → Option (List α × Option α)) (f : α → α)
    (c : List α × Option α) : List α × Option α :=
  join cells (c.1.map f) (c.2.map f)

variable (t : Transform)

theorem const_list (c : List Const × Option Const) :
    t.const (.list c.1 c.2) =
      .list (joined t.constCells t.const c).1 (joined t.constCells t.const c).2 := by
  rw [const, consts_eq_map, const?_eq_map]
  rfl

theorem pattern_list (c : List Pattern × Option Pattern) :
    t.pattern (.list c.1 c.2) =
      .list (joined t.patternCells t.pattern c).1 (joined t.patternCells t.pattern c).2 := by
  rw [pattern, patternList_eq_map, pattern?_eq_map]
  rfl

theorem expr_list (c : List (Ann Expr) × Option (Ann Expr)) :
    t.expr (.list c.1 c.2) =
      .list (joined t.exprCells (t.ann t.expr) c).1 (joined t.exprCells (t.ann t.expr) c).2 := by
  rw [expr, annExprs_eq_map, annExpr?_eq_map]
  rfl

theorem joined_ne_nil {α : Type} (cells : α → Option (List α × Option α)) (f : α → α)
    {c : List α × Option α} (h : c.1 ≠ []) : (joined cells f c).1 ≠ [] :=
  join_ne_nil cells (by simpa using h) _

/-- A tail that is a list with elements and has no annotations is merged into the list that holds
it. -/
def merged : Transform where
  constCells
    | .list (x :: xs) tail => some (x :: xs, tail)
    | _ => none
  patternCells
    | .list (x :: xs) tail => some (x :: xs, tail)
    | _ => none
  exprCells
    | ⟨.list (x :: xs) tail, []⟩ => some (x :: xs, tail)
    | _ => none

theorem constCells_list {xs : List Const} (h : xs ≠ []) (tail : Option Const) :
    merged.constCells (.list xs tail) = some (xs, tail) := by
  cases xs with
  | nil => exact absurd rfl h
  | cons x xs => rfl

theorem patternCells_list {xs : List Pattern} (h : xs ≠ []) (tail : Option Pattern) :
    merged.patternCells (.list xs tail) = some (xs, tail) := by
  cases xs with
  | nil => exact absurd rfl h
  | cons x xs => rfl

theorem exprCells_list {xs : List (Ann Expr)} (h : xs ≠ []) (tail : Option (Ann Expr)) :
    merged.exprCells ⟨.list xs tail, []⟩ = some (xs, tail) := by
  cases xs with
  | nil => exact absurd rfl h
  | cons x xs => rfl

end Transform

end CallGraph
