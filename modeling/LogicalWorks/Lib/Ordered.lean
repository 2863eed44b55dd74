import Mathlib.Data.List.Sort
import Mathlib.Order.Lattice
import Mathlib.Data.List.Basic
import Mathlib.Data.List.Induction
import Mathlib.Data.List.Pairwise

/-! Bounded selections from a list: a sort that depends on the members alone, and what a bound keeps
of those that are asked for. -/
namespace LogicalWorks.Selection

variable {α : Type}

/-- Sorted by an order that tells the members apart, two lists of the same members are one. -/
theorem insertionSort_eq_of_mem_iff (order : α → α → Prop) [DecidableRel order]
    (htotal : ∀ one other, order one other ∨ order other one)
    (htrans : ∀ one other third, order one other → order other third → order one third)
    {left right : List α} (hleft : left.Nodup) (hright : right.Nodup)
    (hmem : ∀ row, row ∈ left ↔ row ∈ right)
    (hanti : ∀ one ∈ left, ∀ other ∈ left, order one other → order other one → one = other) :
    left.insertionSort order = right.insertionSort order := by
  have : Std.Total order := ⟨htotal⟩
  have : IsTrans α order := ⟨htrans⟩
  have hsortLeft := List.perm_insertionSort order left
  have hsortRight := List.perm_insertionSort order right
  have hperm : left.Perm right := (List.perm_ext_iff_of_nodup hleft hright).mpr hmem
  refine (hsortLeft.trans (hperm.trans hsortRight.symm)).eq_of_pairwise ?_
    (List.pairwise_insertionSort order left) (List.pairwise_insertionSort order right)
  intro one other hone hother hle hge
  have honeLeft : one ∈ left := (List.mem_insertionSort order).mp hone
  have hotherLeft : other ∈ left := (hmem other).mpr ((List.mem_insertionSort order).mp hother)
  exact hanti one honeLeft other hotherLeft hle hge

/-- A bound set before the filter keeps as many as one set after it just where all that it keeps
pass, or none beyond it does. -/
theorem length_filter_take_iff (keep : α → Bool) (bound : Nat) (rows : List α) :
    ((rows.take bound).filter keep).length = min bound (rows.filter keep).length ↔
      (∀ row ∈ rows.take bound, keep row = true) ∨
        ∀ row ∈ rows.drop bound, keep row = false := by
  have hsplit : (rows.filter keep).length =
      ((rows.take bound).filter keep).length + ((rows.drop bound).filter keep).length := by
    rw [← List.length_append, ← List.filter_append, List.take_append_drop]
  have hkept : ((rows.take bound).filter keep).length ≤ (rows.take bound).length :=
    List.length_filter_le _ _
  have htaken : (rows.take bound).length = min bound rows.length := List.length_take
  have hdropped : ((rows.drop bound).filter keep).length ≤ rows.length - bound := by
    rw [← List.length_drop]
    exact List.length_filter_le _ _
  constructor
  · intro hlength
    by_cases hnone : ((rows.drop bound).filter keep).length = 0
    · right
      intro row hrow
      have hnil := List.filter_eq_nil_iff.mp (List.eq_nil_of_length_eq_zero hnone) row hrow
      exact Bool.eq_false_iff.mpr hnil
    · left
      apply List.length_filter_eq_length_iff.mp
      omega
  · rintro (hall | hnone)
    · have hfull := List.length_filter_eq_length_iff.mpr hall
      by_cases hshort : rows.length ≤ bound
      · rw [List.drop_eq_nil_of_le hshort] at hsplit
        simp only [List.filter_nil, List.length_nil] at hsplit
        omega
      · omega
    · have hnil : (rows.drop bound).filter keep = [] := by
        rw [List.filter_eq_nil_iff]
        exact fun row hrow => Bool.eq_false_iff.mp (hnone row hrow)
      rw [hnil, List.length_nil] at hsplit
      omega

end LogicalWorks.Selection

/-! Keyed maps as their rows in key order, each key once.  Two maps that answer alike are equal. -/
namespace LogicalWorks

structure Ordered (κ α : Type) [LinearOrder κ] where
  rows : List (κ × α)
  sorted : rows.Pairwise fun left right => left.1 < right.1

namespace Ordered

variable {κ α : Type} [LinearOrder κ] {key asked : κ} {value : α} {rows : List (κ × α)}

def empty : Ordered κ α := ⟨[], .nil⟩

def get (map : Ordered κ α) (key : κ) : Option α :=
  (map.rows.find? fun row => decide (row.1 = key)).map Prod.snd

def put (key : κ) (value : α) : List (κ × α) → List (κ × α)
  | [] => [(key, value)]
  | row :: rest =>
    if key < row.1 then (key, value) :: row :: rest
    else if row.1 = key then (key, value) :: rest
    else row :: put key value rest

theorem mem_put {row : κ × α} (h : row ∈ put key value rows) : row = (key, value) ∨ row ∈ rows := by
  induction rows with
  | nil => exact .inl (List.mem_singleton.mp h)
  | cons first rest ih =>
    unfold put at h
    split at h
    · exact List.mem_cons.mp h
    · split at h
      · exact (List.mem_cons.mp h).imp_right (List.mem_cons_of_mem _)
      · rcases List.mem_cons.mp h with rfl | h
        · exact .inr List.mem_cons_self
        · exact (ih h).imp_right (List.mem_cons_of_mem _)

theorem sorted_put (h : rows.Pairwise fun left right => left.1 < right.1) :
    (put key value rows).Pairwise fun left right => left.1 < right.1 := by
  induction rows with
  | nil => exact List.pairwise_singleton _ _
  | cons first rest ih =>
    obtain ⟨hfirst, hrest⟩ := List.pairwise_cons.mp h
    unfold put
    split
    · rename_i hlt
      refine List.pairwise_cons.mpr ⟨fun row hrow => ?_, h⟩
      rcases List.mem_cons.mp hrow with rfl | hrow
      · exact hlt
      · exact lt_trans hlt (hfirst row hrow)
    · split
      · rename_i heq
        subst heq
        exact List.pairwise_cons.mpr ⟨hfirst, hrest⟩
      · rename_i hge hne
        refine List.pairwise_cons.mpr ⟨fun row hrow => ?_, ih hrest⟩
        rcases mem_put hrow with rfl | hrow
        · exact lt_of_le_of_ne (not_lt.mp hge) hne
        · exact hfirst row hrow

def insert (map : Ordered κ α) (key : κ) (value : α) : Ordered κ α :=
  ⟨put key value map.rows, sorted_put map.sorted⟩

@[simp] theorem get_empty (key : κ) : (empty : Ordered κ α).get key = none := rfl

theorem get_insert (map : Ordered κ α) (key asked : κ) (value : α) [Decidable (asked = key)] :
    (map.insert key value).get asked = if asked = key then some value else map.get asked := by
  obtain ⟨rows, hsorted⟩ := map
  unfold get insert
  dsimp only
  clear hsorted
  induction rows with
  | nil =>
    by_cases hasked : asked = key
    · simp [put, hasked]
    · simp [put, hasked, Ne.symm hasked]
  | cons first rest ih =>
    unfold put
    split
    · by_cases hasked : asked = key
      · simp [hasked]
      · simp [hasked, Ne.symm hasked]
    · split
      · rename_i heq
        by_cases hasked : asked = key
        · simp [hasked]
        · simp [heq, hasked, Ne.symm hasked]
      · rename_i hne
        by_cases hfirst : first.1 = asked
        · have hasked : asked ≠ key := fun heq => hne (hfirst.trans heq)
          simp [hfirst, hasked]
        · simpa [List.find?_cons, hfirst] using ih

def ofList (rows : List (κ × α)) : Ordered κ α :=
  rows.foldl (fun map row => map.insert row.1 row.2) empty

theorem put_of_forall_lt (h : ∀ row ∈ rows, row.1 < key) :
    put key value rows = rows ++ [(key, value)] := by
  induction rows with
  | nil => rfl
  | cons first rest ih =>
    have hfirst := h first List.mem_cons_self
    unfold put
    rw [if_neg (not_lt.mpr (le_of_lt hfirst)), if_neg (ne_of_lt hfirst),
      ih fun row hrow => h row (List.mem_cons_of_mem _ hrow), List.cons_append]

theorem ofList_rows (map : Ordered κ α) : ofList map.rows = map := by
  obtain ⟨rows, hsorted⟩ := map
  have hrows : (ofList rows).rows = rows := by
    unfold ofList
    induction rows using List.reverseRecOn with
    | nil => rfl
    | append_singleton earlier last ih =>
      obtain ⟨hearlier, -, hlast⟩ := List.pairwise_append.mp hsorted
      have hrest := ih hearlier
      rw [List.foldl_append, List.foldl_cons, List.foldl_nil]
      refine (congrArg (put last.1 last.2) hrest).trans ?_
      exact put_of_forall_lt fun row hrow => hlast row hrow last (List.mem_singleton_self _)
  cases hmap : ofList rows with
  | mk found hfound =>
    rw [hmap] at hrows
    subst hrows
    rfl

end Ordered

end LogicalWorks
