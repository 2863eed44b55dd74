import Mathlib.Logic.Function.Basic
import Mathlib.Data.List.Induction

/-! Keyed indexes: a hash map as the function it computes.  Two maps with the same
answers are equal, so an index rebuilt in another order can be compared by `=`. -/
namespace LogicalWorks

def Index (κ : Type) (α : Type) : Type := κ → Option α

namespace Index

variable {κ α β : Type} [DecidableEq κ]

def empty : Index κ α := fun _ => none

def get (index : Index κ α) (key : κ) : Option α := index key

def insert (index : Index κ α) (key : κ) (value : α) : Index κ α :=
  fun asked => if asked = key then some value else index asked

omit [DecidableEq κ] in
@[ext] theorem ext {left right : Index κ α} (h : ∀ key, left.get key = right.get key) :
    left = right :=
  funext h

omit [DecidableEq κ] in
@[simp] theorem get_empty (key : κ) : (empty : Index κ α).get key = none := rfl

@[simp] theorem get_insert_self (index : Index κ α) (key : κ) (value : α) :
    (index.insert key value).get key = some value := by
  simp [get, insert]

theorem get_insert (index : Index κ α) (key asked : κ) (value : α) :
    (index.insert key value).get asked = if asked = key then some value else index.get asked :=
  rfl

def erase (index : Index κ α) (key : κ) : Index κ α :=
  fun asked => if asked = key then none else index asked

theorem get_erase (index : Index κ α) (key asked : κ) :
    (index.erase key).get asked = if asked = key then none else index.get asked :=
  rfl

def insertAll (index : Index κ α) (pairs : List (κ × α)) : Index κ α :=
  pairs.foldl (fun index pair => index.insert pair.1 pair.2) index

@[simp] theorem insertAll_nil (index : Index κ α) : index.insertAll [] = index := rfl

@[simp] theorem insertAll_cons (index : Index κ α) (pair : κ × α) (rest : List (κ × α)) :
    index.insertAll (pair :: rest) = (index.insert pair.1 pair.2).insertAll rest := rfl

theorem insertAll_append (index : Index κ α) (left right : List (κ × α)) :
    index.insertAll (left ++ right) = (index.insertAll left).insertAll right := by
  simp [insertAll]

theorem get_insertAll (index : Index κ α) (pairs : List (κ × α)) (key : κ) :
    (index.insertAll pairs).get key =
      ((empty.insertAll pairs).get key).or (index.get key) := by
  induction pairs using List.reverseRecOn with
  | nil => simp
  | append_singleton rest pair ih =>
    rw [insertAll_append, insertAll_append]
    simp only [insertAll_cons, insertAll_nil, get_insert]
    split
    · rfl
    · exact ih

theorem get_insertAll_eq_none (pairs : List (κ × α)) (key : κ) :
    ((empty : Index κ α).insertAll pairs).get key = none ↔ ∀ pair ∈ pairs, pair.1 ≠ key := by
  induction pairs using List.reverseRecOn with
  | nil => simp
  | append_singleton rest pair ih =>
    rw [insertAll_append]
    simp only [insertAll_cons, insertAll_nil, get_insert, List.mem_append, List.mem_singleton]
    split
    · rename_i hkey
      simp only [reduceCtorEq, false_iff, not_forall]
      exact ⟨pair, Or.inr rfl, fun hne => hne hkey.symm⟩
    · rename_i hkey
      rw [ih]
      constructor
      · rintro hrest other (hmem | rfl)
        · exact hrest other hmem
        · exact fun hother => hkey hother.symm
      · intro hall other hmem
        exact hall other (Or.inl hmem)

theorem mem_of_get_insertAll {pairs : List (κ × α)} {key : κ} {value : α}
    (h : ((empty : Index κ α).insertAll pairs).get key = some value) : (key, value) ∈ pairs := by
  induction pairs using List.reverseRecOn with
  | nil => simp at h
  | append_singleton rest pair ih =>
    rw [insertAll_append] at h
    simp only [insertAll_cons, insertAll_nil, get_insert] at h
    split at h
    · rename_i hkey
      cases h
      simp [hkey]
    · simp [ih h]

end Index

end LogicalWorks
