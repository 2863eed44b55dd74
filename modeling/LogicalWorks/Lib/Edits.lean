import Mathlib.Data.List.Basic
import Mathlib.Order.MinMax
import Mathlib.Data.Nat.Notation

/-! The edit distance by its textbook recurrence, and as the fewest edits: its symmetry, and the
recurrence over the last items. -/
namespace LogicalWorks

variable {α : Type}

section Distance

variable [DecidableEq α]

def mismatch (item other : α) : Nat := if item = other then 0 else 1

def editDistance : List α → List α → Nat
  | [], right => right.length
  | left, [] => left.length
  | item :: left, other :: right =>
    min (min (editDistance left (other :: right) + 1) (editDistance (item :: left) right + 1))
      (editDistance left right + mismatch item other)
termination_by left right => left.length + right.length

theorem editDistance_nil_left (right : List α) : editDistance [] right = right.length := by
  rw [editDistance]

theorem editDistance_nil_right (left : List α) : editDistance left [] = left.length := by
  cases left <;> simp [editDistance]

theorem editDistance_cons (item other : α) (left right : List α) :
    editDistance (item :: left) (other :: right) =
      min (min (editDistance left (other :: right) + 1) (editDistance (item :: left) right + 1))
        (editDistance left right + mismatch item other) := by
  rw [editDistance]

end Distance

inductive Edits : List α → List α → Nat → Prop
  | nil : Edits [] [] 0
  | keep (item : α) {left right : List α} {count : Nat} :
      Edits left right count → Edits (item :: left) (item :: right) count
  | substitute (item other : α) {left right : List α} {count : Nat} :
      Edits left right count → Edits (item :: left) (other :: right) (count + 1)
  | delete (item : α) {left right : List α} {count : Nat} :
      Edits left right count → Edits (item :: left) right (count + 1)
  | insert (other : α) {left right : List α} {count : Nat} :
      Edits left right count → Edits left (other :: right) (count + 1)

namespace Edits

variable {left right left' right' : List α} {count count' : Nat}

theorem symm (h : Edits left right count) : Edits right left count := by
  induction h with
  | nil => exact nil
  | keep item _ ih => exact keep item ih
  | substitute item other _ ih => exact substitute other item ih
  | delete item _ ih => exact insert item ih
  | insert other _ ih => exact delete other ih

theorem append (h : Edits left right count) (h' : Edits left' right' count') :
    Edits (left ++ left') (right ++ right') (count + count') := by
  induction h with
  | nil =>
    rw [Nat.zero_add]
    exact h'
  | keep item _ ih => exact keep item ih
  | substitute item other _ ih =>
    rw [Nat.succ_add]
    exact substitute item other ih
  | delete item _ ih =>
    rw [Nat.succ_add]
    exact delete item ih
  | insert other _ ih =>
    rw [Nat.succ_add]
    exact insert other ih

theorem reverse (h : Edits left right count) : Edits left.reverse right.reverse count := by
  induction h with
  | nil => exact nil
  | keep item _ ih =>
    rw [List.reverse_cons, List.reverse_cons]
    exact ih.append (keep item nil)
  | substitute item other _ ih =>
    rw [List.reverse_cons, List.reverse_cons]
    exact ih.append (substitute item other nil)
  | @delete item left right count _ ih =>
    rw [List.reverse_cons, ← List.append_nil right.reverse]
    exact ih.append (delete item nil)
  | @insert other left right count _ ih =>
    rw [List.reverse_cons, ← List.append_nil left.reverse]
    exact ih.append (insert other nil)

theorem delete_all (left : List α) : Edits left [] left.length := by
  induction left with
  | nil => exact nil
  | cons item left ih => exact delete item ih

theorem length_le (h : Edits left right count) :
    left.length ≤ right.length + count ∧ right.length ≤ left.length + count := by
  induction h with
  | nil => exact ⟨Nat.le_refl 0, Nat.le_refl 0⟩
  | keep item _ ih =>
    simp only [List.length_cons]
    omega
  | substitute item other _ ih =>
    simp only [List.length_cons]
    omega
  | delete item _ ih =>
    simp only [List.length_cons]
    omega
  | insert other _ ih =>
    simp only [List.length_cons]
    omega

end Edits

section Least

variable [DecidableEq α]

theorem edits_editDistance (left right : List α) : Edits left right (editDistance left right) := by
  fun_induction editDistance left right with
  | case1 right => exact (Edits.delete_all right).symm
  | case2 left _ => exact Edits.delete_all left
  | case3 item left other right ihDelete ihInsert ihKeep =>
    rcases min_choice (min (editDistance left (other :: right) + 1)
      (editDistance (item :: left) right + 1)) (editDistance left right + mismatch item other)
      with hmin | hmin
    · rw [hmin]
      rcases min_choice (editDistance left (other :: right) + 1)
        (editDistance (item :: left) right + 1) with hmin | hmin
      · rw [hmin]
        exact ihDelete.delete item
      · rw [hmin]
        exact ihInsert.insert other
    · rw [hmin, mismatch]
      by_cases h : item = other
      · rw [if_pos h, h]
        exact ihKeep.keep other
      · rw [if_neg h]
        exact ihKeep.substitute item other

theorem editDistance_le {left right : List α} {count : Nat} (h : Edits left right count) :
    editDistance left right ≤ count := by
  induction h with
  | nil =>
    rw [editDistance_nil_left]
    exact Nat.le_refl 0
  | keep item _ ih =>
    rw [editDistance_cons, mismatch, if_pos rfl]
    exact Nat.le_trans (Nat.min_le_right _ _) ih
  | substitute item other _ ih =>
    rw [editDistance_cons]
    refine Nat.le_trans (Nat.min_le_right _ _) (Nat.add_le_add ih ?_)
    unfold mismatch
    split <;> decide
  | @delete item left right count h ih =>
    cases right with
    | nil =>
      have hlength := h.length_le.1
      rw [editDistance_nil_right]
      exact Nat.succ_le_succ (Nat.zero_add count ▸ hlength)
    | cons other right =>
      rw [editDistance_cons]
      exact Nat.le_trans (Nat.min_le_left _ _)
        (Nat.le_trans (Nat.min_le_left _ _) (Nat.succ_le_succ ih))
  | @insert other left right count h ih =>
    cases left with
    | nil =>
      have hlength := h.length_le.2
      rw [editDistance_nil_left]
      exact Nat.succ_le_succ (Nat.zero_add count ▸ hlength)
    | cons item left =>
      rw [editDistance_cons]
      exact Nat.le_trans (Nat.min_le_left _ _)
        (Nat.le_trans (Nat.min_le_right _ _) (Nat.succ_le_succ ih))

theorem editDistance_comm (left right : List α) :
    editDistance left right = editDistance right left :=
  Nat.le_antisymm (editDistance_le (edits_editDistance right left).symm)
    (editDistance_le (edits_editDistance left right).symm)

theorem editDistance_reverse (left right : List α) :
    editDistance left.reverse right.reverse = editDistance left right := by
  apply Nat.le_antisymm (editDistance_le (edits_editDistance left right).reverse)
  have hback := (edits_editDistance left.reverse right.reverse).reverse
  rw [List.reverse_reverse, List.reverse_reverse] at hback
  exact editDistance_le hback

theorem editDistance_concat (item other : α) (left right : List α) :
    editDistance (left ++ [item]) (right ++ [other]) =
      min (min (editDistance left (right ++ [other]) + 1)
        (editDistance (left ++ [item]) right + 1))
        (editDistance left right + mismatch item other) := by
  have hcons := editDistance_cons item other left.reverse right.reverse
  have hsnoc (front : List α) (last : α) : last :: front.reverse = (front ++ [last]).reverse := by
    rw [List.reverse_append]
    rfl
  rw [hsnoc, hsnoc] at hcons
  simpa only [editDistance_reverse] using hcons

end Least

end LogicalWorks

/-! Columns of a table of edit distances, told by the bits of two words: which cells are one more
than the cell before, and which are one less. -/
namespace LogicalWorks

/-- The two bits tell the step from one number to the next: one up, one down, or none. -/
structure Steps (up down : Bool) (before after : Nat) : Prop where
  le : after ≤ before + 1
  ge : before ≤ after + 1
  up_iff : up = true ↔ after = before + 1
  down_iff : down = true ↔ before = after + 1

def cell (equal : Bool) (corner side side' : Nat) : Nat :=
  min (min (side + 1) (side' + 1)) (corner + if equal = true then 0 else 1)

theorem cell_comm (equal : Bool) (corner side side' : Nat) :
    cell equal corner side side' = cell equal corner side' side := by
  unfold cell
  rw [Nat.min_comm (side + 1)]

theorem Steps.cell {equal up down up' down' : Bool} {corner side side' : Nat}
    (h : Steps up down corner side) (h' : Steps up' down' corner side') :
    Steps (down || !((equal || down') || up)) (up && (equal || down')) side
      (cell equal corner side side') := by
  obtain ⟨hle, hge, hup, hdown⟩ := h
  obtain ⟨hle', hge', -, hdown'⟩ := h'
  unfold LogicalWorks.cell
  cases equal <;> cases up <;> cases down <;> cases down' <;>
    simp only [Bool.or_true, Bool.or_false, Bool.and_true, Bool.and_false,
      Bool.not_true, Bool.not_false, Bool.false_eq_true, if_true, if_false, true_iff, false_iff]
        at * <;>
    exact ⟨by omega, by omega, by simp <;> omega, by simp <;> omega⟩

def nextColumn (equal : Nat → Bool) (column : Nat → Nat) : Nat → Nat
  | 0 => column 0 + 1
  | row + 1 =>
    cell (equal row) (column row) (column (row + 1)) (nextColumn equal column row)

section Words

variable {width : Nat} (equality positive : BitVec width)

theorem carry_run (row : Nat) :
    BitVec.carry (row + 1) (equality &&& positive) positive false =
      (positive.getLsbD row &&
        (equality.getLsbD row || BitVec.carry row (equality &&& positive) positive false)) := by
  rw [BitVec.carry_succ, BitVec.getLsbD_and]
  cases equality.getLsbD row <;> cases positive.getLsbD row <;>
    cases BitVec.carry row (equality &&& positive) positive false <;> rfl

theorem getLsbD_run {row : Nat} (hrow : row < width) :
    ((((equality &&& positive) + positive) ^^^ positive) ||| equality).getLsbD row =
      (equality.getLsbD row || BitVec.carry row (equality &&& positive) positive false) := by
  rw [BitVec.getLsbD_or, BitVec.getLsbD_xor, BitVec.getLsbD_add hrow, BitVec.getLsbD_and]
  cases equality.getLsbD row <;> cases positive.getLsbD row <;>
    cases BitVec.carry row (equality &&& positive) positive false <;> rfl

end Words

def ColumnBits {width : Nat} (positive negative : BitVec width) (column : Nat → Nat) : Prop :=
  ∀ row < width, Steps (positive.getLsbD row) (negative.getLsbD row) (column row) (column (row + 1))

end LogicalWorks
