import Mathlib.Data.List.Nodup
import Mathlib.Data.List.Range
import Mathlib.Data.List.Perm.Subperm
import Mathlib.Data.List.Sort
import Mathlib.Data.List.FinRange

/-! Chains of links.  A table says for each place which place comes next; a chain is what lies
between a start and an end mark. -/
namespace LogicalWorks.Linked

/-- From a start the links lead through these places and on to an end mark. -/
inductive Chain {α : Type} (link : α → Option α) (Ends : α → Prop) : α → List α → Prop
  | done {place : α} (hends : Ends place) : Chain link Ends place []
  | step {place next : α} {rest : List α} (hopen : ¬ Ends place) (hlink : link place = some next)
      (hrest : Chain link Ends next rest) : Chain link Ends place (place :: rest)

variable {α : Type} {link : α → Option α} {Ends : α → Prop} {start : α} {chain : List α}

end LogicalWorks.Linked

/-! The first item of an ordered list that a search takes is the least one it could take. -/
namespace LogicalWorks

variable {α β : Type} [LE α] [Std.IsPartialOrder α]

theorem findSome_sorted {items : List α} (hsorted : items.Pairwise (· ≤ ·)) {f : α → Option β}
    {value : β} : items.findSome? f = some value ↔ ∃ item ∈ items, f item = some value ∧
      ∀ other ∈ items, (f other).isSome = true → item ≤ other := by
  induction items with
  | nil => simp
  | cons first rest ih =>
    obtain ⟨hfirst, hrest⟩ := List.pairwise_cons.mp hsorted
    rw [List.findSome?_cons]
    cases hvalue : f first with
    | some found =>
      constructor
      · intro heq
        refine ⟨first, List.mem_cons_self, hvalue.trans heq, fun other hother _ => ?_⟩
        rcases List.mem_cons.mp hother with rfl | hother
        · exact Std.le_refl _
        · exact hfirst other hother
      · rintro ⟨item, hitem, hitem_value, hleast⟩
        have hle := hleast first List.mem_cons_self (by rw [hvalue]; rfl)
        rcases List.mem_cons.mp hitem with rfl | hitem
        · exact hvalue.symm.trans hitem_value
        · rw [Std.le_antisymm hle (hfirst item hitem)] at hitem_value
          exact hvalue.symm.trans hitem_value
    | none =>
      rw [ih hrest]
      constructor
      · rintro ⟨item, hitem, hitem_value, hleast⟩
        refine ⟨item, List.mem_cons_of_mem _ hitem, hitem_value, fun other hother hsome => ?_⟩
        rcases List.mem_cons.mp hother with rfl | hother
        · rw [hvalue] at hsome
          cases hsome
        · exact hleast other hother hsome
      · rintro ⟨item, hitem, hitem_value, hleast⟩
        rcases List.mem_cons.mp hitem with rfl | hitem
        · rw [hvalue] at hitem_value
          cases hitem_value
        · exact ⟨item, hitem, hitem_value,
            fun other hother => hleast other (List.mem_cons_of_mem _ hother)⟩

theorem find_sorted {items : List α} (hsorted : items.Pairwise (· ≤ ·)) {p : α → Bool} {item : α} :
    items.find? p = some item ↔ item ∈ items ∧ p item = true ∧
      ∀ other ∈ items, p other = true → item ≤ other := by
  rw [List.find?_eq_findSome?_guard, findSome_sorted hsorted]
  constructor
  · rintro ⟨other, hmem, hvalue, hleast⟩
    obtain ⟨rfl, hp⟩ := Option.guard_eq_some_iff.mp hvalue
    exact ⟨hmem, hp, fun later hlater hother => hleast later hlater (by simp [hother])⟩
  · rintro ⟨hmem, hp, hleast⟩
    exact ⟨item, hmem, Option.guard_eq_some_iff.mpr ⟨rfl, hp⟩,
      fun other hother hsome => hleast other hother (by simpa using hsome)⟩

end LogicalWorks

/-! Lists in descending order of a score, and lists that are one another's rearrangement. -/
namespace LogicalWorks.Ranked

variable {α K : Type} [LinearOrder K]

def Descending (score : α → K) (ranked : List α) : Prop :=
  ranked.Pairwise fun before after => score after ≤ score before

theorem takeWhile_eq_filter {ranked : List α} {holds : α → Bool}
    (h : ranked.Pairwise fun before after => holds after = true → holds before = true) :
    ranked.takeWhile holds = ranked.filter holds := by
  induction ranked with
  | nil => rfl
  | cons first rest ih =>
    obtain ⟨hfirst, hrest⟩ := List.pairwise_cons.mp h
    by_cases hhere : holds first = true
    · rw [List.takeWhile_cons_of_pos hhere, List.filter_cons_of_pos hhere, ih hrest]
    · rw [List.takeWhile_cons_of_neg hhere, List.filter_cons_of_neg hhere]
      refine (List.filter_eq_nil_iff.mpr ?_).symm
      intro after hmem hafter
      exact hhere (hfirst after hmem hafter)

theorem Descending.map_eq {score : α → K} {ranked other : List α} (h : Descending score ranked)
    (hother : Descending score other) (hperm : ranked.Perm other) :
    ranked.map score = other.map score := by
  have hranked : (ranked.map score).Pairwise fun left right => right ≤ left :=
    List.pairwise_map.mpr h
  have hsame : (other.map score).Pairwise fun left right => right ≤ left :=
    List.pairwise_map.mpr hother
  refine List.Perm.eq_of_pairwise ?_ hranked hsame (hperm.map score)
  intro left right _ _ hle hge
  exact le_antisymm hge hle

end LogicalWorks.Ranked
