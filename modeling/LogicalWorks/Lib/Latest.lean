import Mathlib.Data.List.Perm.Basic

/-! The item a fold keeps when each exceeds what was kept so far or is dropped.  Under a strict
order in which no two items tie it is the greatest, whichever order they come in. -/
namespace LogicalWorks

variable {α : Type}

def latest (exceeds : α → α → Bool) (held : Option α) (item : α) : Option α :=
  match held with
  | none => some item
  | some kept => if exceeds item kept then some item else some kept

/-- The relation orders the items that satisfy `P` strictly, and no two of them tie. -/
structure StrictOn (P : α → Prop) (exceeds : α → α → Bool) : Prop where
  asymm : ∀ {left right}, P left → P right → exceeds left right = true →
    exceeds right left = false
  trans : ∀ {left middle right}, P left → P middle → P right → exceeds left middle = true →
    exceeds middle right = true → exceeds left right = true
  connected : ∀ {left right}, P left → P right → exceeds left right = false →
    exceeds right left = false → left = right

variable {P : α → Prop} {exceeds : α → α → Bool} {items : List α} {kept : α}

theorem latest_isSome (held : Option α) (item : α) : (latest exceeds held item).isSome = true := by
  unfold latest
  cases held with
  | none => rfl
  | some other =>
    dsimp only
    split
    · rfl
    · rfl

theorem foldl_latest_isSome {held : Option α} (hheld : held.isSome = true ∨ items ≠ []) :
    (items.foldl (latest exceeds) held).isSome = true := by
  induction items generalizing held with
  | nil =>
    rcases hheld with hheld | hempty
    · exact hheld
    · exact absurd rfl hempty
  | cons item rest ih => exact ih (Or.inl (latest_isSome held item))

namespace StrictOn

theorem irrefl (strict : StrictOn P exceeds) {item : α} (hitem : P item) :
    exceeds item item = false := by
  rw [← Bool.not_eq_true]
  intro hself
  have hnot := strict.asymm hitem hitem hself
  rw [hself] at hnot
  cases hnot

theorem latest_spec (strict : StrictOn P exceeds) {held : Option α} {item : α}
    (hheld : ∀ start, held = some start → P start) (hitem : P item) :
    ∃ next, latest exceeds held item = some next ∧ P next ∧ (held = some next ∨ next = item) ∧
      exceeds item next = false ∧
        ∀ start, held = some start → start = next ∨ exceeds next start = true := by
  cases held with
  | none =>
    refine ⟨item, rfl, hitem, Or.inr rfl, strict.irrefl hitem, ?_⟩
    intro start hsome
    cases hsome
  | some start =>
    cases hexceeds : exceeds item start with
    | true =>
      refine ⟨item, by simp [latest, hexceeds], hitem, Or.inr rfl, strict.irrefl hitem, ?_⟩
      intro other hother
      cases hother
      exact Or.inr hexceeds
    | false =>
      refine ⟨start, by simp [latest, hexceeds], hheld start rfl, Or.inl rfl, hexceeds, ?_⟩
      intro other hother
      cases hother
      exact Or.inl rfl

theorem foldl_latest (strict : StrictOn P exceeds) {held : Option α}
    (hheld : ∀ start, held = some start → P start) (hitems : ∀ item ∈ items, P item)
    (hkept : items.foldl (latest exceeds) held = some kept) :
    (held = some kept ∨ kept ∈ items) ∧ (∀ start, held = some start → exceeds start kept = false) ∧
      ∀ item ∈ items, exceeds item kept = false := by
  induction items generalizing held with
  | nil =>
    refine ⟨Or.inl hkept, ?_, ?_⟩
    · intro start hstart
      rw [List.foldl_nil] at hkept
      rw [hkept] at hstart
      cases hstart
      exact strict.irrefl (hheld kept hkept)
    · intro item hitem
      cases hitem
  | cons item rest ih =>
    rw [List.foldl_cons] at hkept
    have hitem := hitems item List.mem_cons_self
    have hrest : ∀ other ∈ rest, P other :=
      fun other hother => hitems other (List.mem_cons_of_mem _ hother)
    -- The fold goes on from `next`.
    obtain ⟨next, hnext, hnextP, hfrom, hover, hstart⟩ := strict.latest_spec hheld hitem
    rw [hnext] at hkept
    obtain ⟨hplace, hnextKept, hrestKept⟩ := ih (by rintro _ ⟨⟩; exact hnextP) hrest hkept
    have hnextLe := hnextKept next rfl
    have hkeptP : P kept := by
      rcases hplace with heq | hmem
      · cases heq
        exact hnextP
      · exact hrest kept hmem
    have hbelow : ∀ other, P other → (other = next ∨ exceeds next other = true) →
        exceeds other kept = false := by
      rintro other hother (rfl | hless)
      · exact hnextLe
      · rw [← Bool.not_eq_true]
        intro hotherOver
        have hchain := strict.trans hnextP hother hkeptP hless hotherOver
        rw [hnextLe] at hchain
        cases hchain
    refine ⟨?_, ?_, ?_⟩
    · rcases hplace with heq | hmem
      · cases heq
        rcases hfrom with hfrom | rfl
        · exact Or.inl hfrom
        · exact Or.inr List.mem_cons_self
      · exact Or.inr (List.mem_cons_of_mem _ hmem)
    · intro start hsome
      exact hbelow start (hheld start hsome) (hstart start hsome)
    · intro other hother
      rcases List.mem_cons.mp hother with rfl | hother
      · by_cases hsame : other = next
        · exact hbelow other hitem (Or.inl hsame)
        · refine hbelow other hitem (Or.inr ?_)
          rw [← Bool.not_eq_false]
          intro hnot
          exact hsame (strict.connected hitem hnextP hover hnot)
      · exact hrestKept other hother

theorem foldl_latest_eq_some (strict : StrictOn P exceeds) (hitems : ∀ item ∈ items, P item) :
    items.foldl (latest exceeds) none = some kept ↔
      kept ∈ items ∧ ∀ item ∈ items, exceeds item kept = false := by
  constructor
  · intro hkept
    obtain ⟨hplace, -, habove⟩ := strict.foldl_latest (by rintro _ ⟨⟩) hitems hkept
    rcases hplace with heq | hmem
    · cases heq
    · exact ⟨hmem, habove⟩
  · rintro ⟨hmem, habove⟩
    obtain ⟨found, hfound⟩ := Option.isSome_iff_exists.mp
      (foldl_latest_isSome (Or.inr (List.ne_nil_of_mem hmem)))
    rw [hfound]
    obtain ⟨hplace, -, hfoundAbove⟩ := strict.foldl_latest (by rintro _ ⟨⟩) hitems hfound
    rcases hplace with heq | hfoundMem
    · cases heq
    · rw [strict.connected (hitems found hfoundMem) (hitems kept hmem) (habove found hfoundMem)
        (hfoundAbove kept hmem)]

theorem foldl_latest_perm (strict : StrictOn P exceeds) (hitems : ∀ item ∈ items, P item)
    {others : List α} (hperm : others.Perm items) :
    others.foldl (latest exceeds) none = items.foldl (latest exceeds) none := by
  apply Option.ext
  intro found
  rw [strict.foldl_latest_eq_some hitems,
    strict.foldl_latest_eq_some (fun item hitem => hitems item (hperm.mem_iff.mp hitem))]
  simp only [hperm.mem_iff]

end StrictOn

end LogicalWorks
