import Mathlib.Logic.Basic
import Mathlib.Data.List.Forall2

/-! Checks in sequence: a computation that stops at the first check that refuses. -/
namespace LogicalWorks

variable {ε α β : Type}

def require (condition : Prop) [Decidable condition] (refusal : ε) : Except ε Unit :=
  if condition then .ok () else .error refusal

@[simp] theorem require_eq_ok {condition : Prop} [Decidable condition] {refusal : ε}
    {value : Unit} : require condition refusal = .ok value ↔ condition := by
  unfold require
  split <;> simp_all

@[simp] theorem bind_eq_ok {first : Except ε α} {rest : α → Except ε β} {value : β} :
    (first >>= rest) = .ok value ↔ ∃ middle, first = .ok middle ∧ rest middle = .ok value := by
  cases first with
  | error refusal =>
    constructor
    · intro h
      cases h
    · rintro ⟨middle, h, -⟩
      cases h
  | ok middle =>
    constructor
    · intro h
      exact ⟨middle, rfl, h⟩
    · rintro ⟨other, h, hrest⟩
      cases h
      exact hrest

theorem bind_eq_error {first : Except ε α} {rest : α → Except ε β} {refusal : ε} :
    (first >>= rest) = .error refusal ↔
      first = .error refusal ∨ ∃ middle, first = .ok middle ∧ rest middle = .error refusal := by
  cases first with
  | error other =>
    constructor
    · intro h
      cases h
      exact .inl rfl
    · rintro (h | ⟨middle, h, -⟩)
      · cases h
        rfl
      · cases h
  | ok middle =>
    constructor
    · intro h
      exact .inr ⟨middle, rfl, h⟩
    · rintro (h | ⟨other, h, hrest⟩)
      · cases h
      · cases h
        exact hrest

@[simp] theorem ok_bind (middle : α) (rest : α → Except ε β) :
    ((.ok middle : Except ε α) >>= rest) = rest middle := rfl

@[simp] theorem error_bind (refusal : ε) (rest : α → Except ε β) :
    ((.error refusal : Except ε α) >>= rest) = .error refusal := rfl

@[simp] theorem pure_eq_ok {value other : α} :
    (pure value : Except ε α) = .ok other ↔ value = other := by
  constructor
  · intro h
    exact Except.ok.inj h
  · rintro rfl
    rfl

theorem forM_eq_ok {items : List α} {f : α → Except ε Unit} :
    items.forM f = .ok () ↔ ∀ item ∈ items, f item = .ok () := by
  induction items with
  | nil => exact ⟨fun _ _ hmem => (by cases hmem), fun _ => rfl⟩
  | cons item rest ih =>
    change (f item >>= fun _ => rest.forM f) = .ok () ↔ _
    cases hitem : f item with
    | error refusal =>
      constructor
      · intro h
        cases h
      · intro h
        rw [h item List.mem_cons_self] at hitem
        cases hitem
    | ok answer =>
      refine ⟨fun h other hmem => ?_, fun h => ih.mpr fun other hmem =>
        h other (List.mem_cons_of_mem _ hmem)⟩
      rcases List.mem_cons.mp hmem with rfl | hlater
      · exact hitem
      · exact ih.mp h other hlater

theorem mapM_eq_ok {items : List α} {f : α → Except ε β} {values : List β} :
    items.mapM f = .ok values ↔ List.Forall₂ (fun item value => f item = .ok value) items values := by
  induction items generalizing values with
  | nil =>
    constructor
    · intro h
      cases h
      exact .nil
    · intro h
      cases h
      rfl
  | cons item rest ih =>
    rw [List.mapM_cons]
    simp only [bind_eq_ok, pure_eq_ok, ih]
    constructor
    · rintro ⟨value, hvalue, others, hothers, rfl⟩
      exact .cons hvalue hothers
    · rintro (_ | ⟨hvalue, hothers⟩)
      exact ⟨_, hvalue, _, hothers, rfl⟩

theorem exists_mapM {items : List α} {f : α → Except ε β}
    (h : ∀ item ∈ items, ∃ value, f item = .ok value) : ∃ values, items.mapM f = .ok values := by
  induction items with
  | nil => exact ⟨[], rfl⟩
  | cons item rest ih =>
    obtain ⟨value, hvalue⟩ := h item List.mem_cons_self
    obtain ⟨values, hvalues⟩ := ih fun other hmem => h other (List.mem_cons_of_mem _ hmem)
    exact ⟨value :: values, mapM_eq_ok.mpr (.cons hvalue (mapM_eq_ok.mp hvalues))⟩

end LogicalWorks
