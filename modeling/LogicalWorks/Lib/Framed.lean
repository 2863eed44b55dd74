import Mathlib.Data.List.Basic
import Mathlib.Logic.Function.Basic

/-! Concatenations of written items, and what they can be taken apart to. -/
namespace LogicalWorks

variable {α β : Type}

def PrefixFree (write : α → List β) : Prop :=
  ∀ left right rest rest', write left ++ rest = write right ++ rest' →
    left = right ∧ rest = rest'

/-- Items that end where their text says are found again in their concatenation. -/
theorem PrefixFree.flatMap_injective {write : α → List β} (h : PrefixFree write)
    (hne : ∀ item, write item ≠ []) : Function.Injective (List.flatMap write) := by
  intro left right hsame
  induction left generalizing right with
  | nil =>
    cases right with
    | nil => rfl
    | cons item rest =>
      rw [List.flatMap_nil, List.flatMap_cons] at hsame
      exact absurd (List.append_eq_nil_iff.mp hsame.symm).1 (hne item)
  | cons item rest ih =>
    cases right with
    | nil =>
      rw [List.flatMap_nil, List.flatMap_cons] at hsame
      exact absurd (List.append_eq_nil_iff.mp hsame).1 (hne item)
    | cons item' rest' =>
      obtain ⟨hitem, hrest⟩ := h item item' _ _ hsame
      rw [hitem, ih hrest]

structure FixedWidth (write : α → List β) (width : Nat) : Prop where
  length (item : α) : (write item).length = width
  injective : Function.Injective write
  positive : 0 < width

namespace FixedWidth

variable {write : α → List β} {width : Nat}

theorem prefixFree (h : FixedWidth write width) : PrefixFree write := by
  intro left right rest rest' hsame
  obtain ⟨hwrite, hrest⟩ :=
    List.append_inj hsame ((h.length left).trans (h.length right).symm)
  exact ⟨h.injective hwrite, hrest⟩

theorem flatMap_injective (h : FixedWidth write width) :
    Function.Injective (List.flatMap write) := by
  refine h.prefixFree.flatMap_injective fun item hnil => ?_
  have hlength := h.length item
  rw [hnil] at hlength
  exact absurd hlength (Nat.ne_of_lt h.positive)

theorem length_flatMap (h : FixedWidth write width) (items : List α) :
    (items.flatMap write).length = items.length * width := by
  induction items with
  | nil => rw [List.flatMap_nil, List.length_nil, List.length_nil, Nat.zero_mul]
  | cons item rest ih =>
    rw [List.flatMap_cons, List.length_append, h.length, ih, List.length_cons, Nat.succ_mul,
      Nat.add_comm]

theorem split_before (h : FixedWidth write width) {front : List β} {items items' : List α}
    (hsame : front ++ items.flatMap write = items'.flatMap write) :
    ∃ shift, front = shift.flatMap write ∧ items' = shift ++ items := by
  have hlength := congrArg List.length hsame
  rw [List.length_append, h.length_flatMap, h.length_flatMap] at hlength
  have hcount : items.length ≤ items'.length :=
    Nat.le_of_mul_le_mul_right (hlength ▸ Nat.le_add_left _ _) h.positive
  have hparts := List.take_append_drop (items'.length - items.length) items'
  rw [← hparts, List.flatMap_append] at hsame
  have hrest : (items.flatMap write).length =
      ((items'.drop (items'.length - items.length)).flatMap write).length := by
    rw [h.length_flatMap, h.length_flatMap, List.length_drop, Nat.sub_sub_self hcount]
  obtain ⟨hfront, hback⟩ := List.append_inj' hsame hrest
  refine ⟨_, hfront, hparts.symm.trans ?_⟩
  exact congrArg (_ ++ ·) (h.flatMap_injective hback).symm

/-- A free text before written items is told from another unless one goes on with items of the
other. -/
theorem append_flatMap_eq_iff (h : FixedWidth write width) {front front' : List β}
    {items items' : List α} :
    front ++ items.flatMap write = front' ++ items'.flatMap write ↔
      ∃ shift, front = front' ++ shift.flatMap write ∧ items' = shift ++ items ∨
        front' = front ++ shift.flatMap write ∧ items = shift ++ items' := by
  constructor
  · intro hsame
    rcases List.append_eq_append_iff.mp hsame with ⟨between, hfront, hback⟩ | ⟨between, hfront, hback⟩
    · obtain ⟨shift, rfl, hitems⟩ := h.split_before hback.symm
      exact ⟨shift, .inr ⟨hfront, hitems⟩⟩
    · obtain ⟨shift, rfl, hitems⟩ := h.split_before hback.symm
      exact ⟨shift, .inl ⟨hfront, hitems⟩⟩
  · rintro ⟨shift, ⟨rfl, rfl⟩ | ⟨rfl, rfl⟩⟩
    · rw [List.append_assoc, List.flatMap_append]
    · rw [List.append_assoc, List.flatMap_append]

end FixedWidth

end LogicalWorks
