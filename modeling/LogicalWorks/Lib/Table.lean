import Mathlib.Logic.Basic
import Mathlib.Data.List.Basic
import Mathlib.Data.List.Nodup

/-! Keyed tables that know their size: a hash map as its rows in the order their keys first
came.  Two tables built by the same insertions are equal. -/
namespace LogicalWorks

structure Table (κ α : Type) where
  rows : List (κ × α)
  deriving DecidableEq, Repr

namespace Table

variable {κ α : Type} [DecidableEq κ]

def empty : Table κ α := ⟨[]⟩

def size (table : Table κ α) : Nat := table.rows.length

def find (key : κ) : List (κ × α) → Option α
  | [] => none
  | row :: rest => if row.1 = key then some row.2 else find key rest

def get (table : Table κ α) (key : κ) : Option α := find key table.rows

def put (key : κ) (value : α) : List (κ × α) → List (κ × α)
  | [] => [(key, value)]
  | row :: rest => if row.1 = key then (key, value) :: rest else row :: put key value rest

def insert (table : Table κ α) (key : κ) (value : α) : Table κ α := ⟨put key value table.rows⟩

def remove (table : Table κ α) (key : κ) : Table κ α :=
  ⟨table.rows.filter fun row => row.1 ≠ key⟩

private theorem find_cons (key : κ) (row : κ × α) (rest : List (κ × α)) :
    find key (row :: rest) = if row.1 = key then some row.2 else find key rest := rfl

@[simp] theorem get_empty (key : κ) : (empty : Table κ α).get key = none := rfl

theorem get_insert (table : Table κ α) (key asked : κ) (value : α) :
    (table.insert key value).get asked = if asked = key then some value else table.get asked := by
  have hfind : ∀ rows : List (κ × α),
      find asked (put key value rows) = if asked = key then some value else find asked rows := by
    intro rows
    induction rows with
    | nil => simp [put, find, eq_comm]
    | cons row rest ih =>
      unfold put
      by_cases hrow : row.1 = key
      · rw [if_pos hrow]
        by_cases hasked : asked = key
        · simp [find, hasked]
        · simp [find, hasked, hrow, Ne.symm hasked]
      · rw [if_neg hrow]
        rw [find_cons, find_cons]
        by_cases hhere : row.1 = asked
        · rw [if_pos hhere, if_pos hhere, if_neg (by rw [← hhere]; exact hrow)]
        · rw [if_neg hhere, if_neg hhere, ih]
  exact hfind table.rows

@[simp] theorem get_insert_self (table : Table κ α) (key : κ) (value : α) :
    (table.insert key value).get key = some value := by
  rw [get_insert, if_pos rfl]

theorem get_insert_of_ne (table : Table κ α) {key asked : κ} (value : α) (h : asked ≠ key) :
    (table.insert key value).get asked = table.get asked := by
  rw [get_insert, if_neg h]

theorem get_remove (table : Table κ α) (key asked : κ) :
    (table.remove key).get asked = if asked = key then none else table.get asked := by
  have hfind : ∀ rows : List (κ × α), find asked (rows.filter fun row => row.1 ≠ key) =
      if asked = key then none else find asked rows := by
    intro rows
    induction rows with
    | nil => simp [find]
    | cons row rest ih =>
      by_cases hrow : row.1 = key
      · rw [List.filter_cons_of_neg (by simpa using hrow), ih]
        by_cases hasked : asked = key
        · rw [if_pos hasked, if_pos hasked]
        · rw [if_neg hasked, if_neg hasked]
          rw [find_cons, if_neg (by rw [hrow]; exact Ne.symm hasked)]
      · rw [List.filter_cons_of_pos (by simpa using hrow)]
        rw [find_cons, find_cons]
        by_cases hhere : row.1 = asked
        · rw [if_pos hhere, if_pos hhere, if_neg (by rw [← hhere]; exact hrow)]
        · rw [if_neg hhere, if_neg hhere, ih]
  exact hfind table.rows

theorem mem_keys {table : Table κ α} {key : κ} :
    key ∈ table.rows.map Prod.fst ↔ (table.get key).isSome = true := by
  unfold get
  induction table.rows with
  | nil => simp [find]
  | cons row rest ih =>
    rw [find_cons, List.map_cons, List.mem_cons, ih]
    by_cases hrow : row.1 = key
    · simp [hrow]
    · simp [hrow, Ne.symm hrow]

theorem mem_rows_iff {table : Table κ α} (h : (table.rows.map Prod.fst).Nodup) {row : κ × α} :
    row ∈ table.rows ↔ table.get row.1 = some row.2 := by
  unfold get
  induction hrows : table.rows generalizing table with
  | nil => simp [find]
  | cons first rest ih =>
    rw [hrows, List.map_cons, List.nodup_cons] at h
    have hrest := @ih ⟨rest⟩ h.2 rfl
    rw [find_cons, List.mem_cons]
    by_cases hfirst : first.1 = row.1
    · have hnot : row ∉ rest := by
        intro hin
        exact h.1 (hfirst ▸ List.mem_map_of_mem hin)
      rw [if_pos hfirst, Option.some.injEq]
      constructor
      · rintro (rfl | hin)
        · rfl
        · exact absurd hin hnot
      · intro hvalue
        exact .inl (Prod.ext hfirst.symm hvalue.symm)
    · rw [if_neg hfirst, ← hrest]
      refine or_iff_right ?_
      rintro rfl
      exact hfirst rfl

theorem nodup_keys_insert {table : Table κ α} (key : κ) (value : α)
    (h : (table.rows.map Prod.fst).Nodup) :
    ((table.insert key value).rows.map Prod.fst).Nodup := by
  have hput : ∀ rows : List (κ × α), (put key value rows).map Prod.fst =
      if key ∈ rows.map Prod.fst then rows.map Prod.fst else rows.map Prod.fst ++ [key] := by
    intro rows
    induction rows with
    | nil => rfl
    | cons row rest ih =>
      unfold put
      by_cases hrow : row.1 = key
      · simp [hrow]
      · rw [if_neg hrow, List.map_cons, ih, List.map_cons]
        by_cases hrest : key ∈ rest.map Prod.fst
        · rw [if_pos hrest, if_pos (List.mem_cons_of_mem _ hrest)]
        · have hnot : key ∉ row.1 :: rest.map Prod.fst := by
            simp only [List.mem_cons, not_or]
            exact ⟨Ne.symm hrow, hrest⟩
          rw [if_neg hrest, if_neg hnot, List.cons_append]
  unfold insert
  rw [hput]
  split
  · exact h
  · rename_i hnew
    exact h.append (List.nodup_singleton _) (by simpa using hnew)

theorem size_insert (table : Table κ α) (key : κ) (value : α) :
    (table.insert key value).size =
      if (table.get key).isSome = true then table.size else table.size + 1 := by
  have hput : ∀ rows : List (κ × α), (put key value rows).length =
      if (find key rows).isSome = true then rows.length else rows.length + 1 := by
    intro rows
    induction rows with
    | nil => rfl
    | cons row rest ih =>
      unfold put find
      by_cases hrow : row.1 = key
      · rw [if_pos hrow, if_pos hrow]
        rfl
      · rw [if_neg hrow, if_neg hrow, List.length_cons, List.length_cons, ih]
        split <;> rfl
  exact hput table.rows

theorem size_insert_le (table : Table κ α) (key : κ) (value : α) :
    (table.insert key value).size ≤ table.size + 1 := by
  have hput : ∀ rows : List (κ × α), (put key value rows).length ≤ rows.length + 1 := by
    intro rows
    induction rows with
    | nil => exact Nat.le_refl _
    | cons row rest ih =>
      unfold put
      split
      · exact Nat.le_succ _
      · exact Nat.succ_le_succ ih
  exact hput table.rows

theorem mem_rows_insert {table : Table κ α} {key : κ} {value : α} {row : κ × α}
    (h : row ∈ (table.insert key value).rows) : row = (key, value) ∨ row ∈ table.rows := by
  have hput : ∀ rows : List (κ × α), row ∈ put key value rows → row = (key, value) ∨ row ∈ rows := by
    intro rows
    induction rows with
    | nil =>
      intro hrow
      exact .inl (List.mem_singleton.mp hrow)
    | cons first rest ih =>
      intro hrow
      unfold put at hrow
      split at hrow
      · rcases List.mem_cons.mp hrow with hrow | hrow
        · exact .inl hrow
        · exact .inr (List.mem_cons_of_mem _ hrow)
      · rcases List.mem_cons.mp hrow with hrow | hrow
        · exact .inr (hrow ▸ List.mem_cons_self)
        · exact (ih hrow).imp_right (List.mem_cons_of_mem _)
  exact hput table.rows h

theorem foldl_remove_eq_empty (keys : List κ) :
    ∀ {table : Table κ α}, (∀ row ∈ table.rows, row.1 ∈ keys) →
      keys.foldl remove table = empty := by
  induction keys with
  | nil =>
    intro table h
    have hrows : table.rows = [] := by
      rw [List.eq_nil_iff_forall_not_mem]
      intro row hrow
      cases h row hrow
    exact congrArg Table.mk hrows
  | cons key rest ih =>
    intro table h
    rw [List.foldl_cons]
    refine ih ?_
    intro row hrow
    obtain ⟨hin, hne⟩ := List.mem_filter.mp hrow
    rcases List.mem_cons.mp (h row hin) with hkey | hlater
    · exact absurd hkey (by simpa using hne)
    · exact hlater

theorem remove_insert_of_none {table : Table κ α} {key : κ} (value : α)
    (h : table.get key = none) : (table.insert key value).remove key = table := by
  have hrows : ∀ rows : List (κ × α), find key rows = none →
      (put key value rows).filter (fun row => row.1 ≠ key) = rows := by
    intro rows
    induction rows with
    | nil => simp [put]
    | cons row rest ih =>
      intro hnone
      rw [find_cons] at hnone
      by_cases hrow : row.1 = key
      · rw [if_pos hrow] at hnone
        cases hnone
      · rw [if_neg hrow] at hnone
        unfold put
        rw [if_neg hrow, List.filter_cons_of_pos (by simpa using hrow), ih hnone]
  exact congrArg Table.mk (hrows table.rows h)

end Table

end LogicalWorks
