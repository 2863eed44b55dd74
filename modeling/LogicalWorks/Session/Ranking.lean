import LogicalWorks.Session.Language
import Mathlib.Data.BitVec

/-! Ranking by scores as the machine holds them.  A score may be no number, and then no comparison
of it holds and no subtraction from it gives a number. -/
namespace LogicalWorks.Session

structure F64 where
  bits : BitVec 64
  deriving DecidableEq

namespace F64

def negative (score : F64) : Bool := score.bits.msb

def magnitude (score : F64) : Nat := score.bits.toNat % 2 ^ 63

def isNan (score : F64) : Bool := 0x7ff0000000000000 < score.magnitude

/-- The bits read as a signed integer, the magnitudes of negative floats turned round. -/
def totalKey (score : F64) : Int :=
  if score.negative then -(score.magnitude : Int) - 1 else score.magnitude

def totalCmp (left right : F64) : Ordering := compare left.totalKey right.totalKey

/-- The order of numbers: the two zeros are equal, and nothing is less than what is no number. -/
def lt (left right : F64) : Bool :=
  !left.isNan && !right.isNan && (left.magnitude ≠ 0 || right.magnitude ≠ 0) &&
    left.totalKey < right.totalKey

def le (left right : F64) : Bool :=
  !left.isNan && !right.isNan &&
    ((left.magnitude = 0 && right.magnitude = 0) || left.totalKey ≤ right.totalKey)

end F64

/-- An option's index, its tier, and its score in the machine's floats. -/
abbrev Measured := Nat × MatchTier × F64

def byScoreDescending (left right : Measured) : Ordering :=
  if left.2.2.isNan && !right.2.2.isNan then .lt
  else if !left.2.2.isNan && right.2.2.isNan then .gt
  else right.2.2.totalCmp left.2.2

def Sorts (left right : Measured) : Prop := byScoreDescending left right ≠ .gt

instance : DecidableRel Sorts := fun left right =>
  inferInstanceAs (Decidable (byScoreDescending left right ≠ .gt))

def sortMeasured (scored : List Measured) : List Measured := scored.insertionSort Sorts

inductive Ruling where
  | absent (bestScore : F64)
  | resolved (index : Nat) (tier : MatchTier) (score lead : F64)
  | ambiguous (tied : List Nat) (tier : MatchTier) (score : F64)
  deriving DecidableEq

section Deciding

variable (subtract : F64 → F64 → F64) (threshold margin : F64)

def leadMeasured (score : F64) : List Measured → F64
  | [] => score
  | next :: _ => subtract score next.2.2

def decideMeasured : List Measured → Ruling
  | [] => .absent ⟨0⟩
  | best :: rest =>
    if best.2.2.lt threshold then .absent best.2.2
    else if margin.le (leadMeasured subtract best.2.2 rest) then
      .resolved best.1 best.2.1 best.2.2 (leadMeasured subtract best.2.2 rest)
    else
      .ambiguous ((((best :: rest).takeWhile fun candidate =>
        (subtract best.2.2 candidate.2.2).lt margin).map Prod.fst).insertionSort (· ≤ ·))
        best.2.1 best.2.2

def numeric (scored : List Measured) : List Measured :=
  scored.filter fun candidate => !candidate.2.2.isNan

/-- What is no number never wins: the sort has the numbers first, from the greatest down and those
alike by index, and the verdict is the one on the numbers alone. -/
structure NumbersWin (scored : List Measured) : Prop where
  before : (sortMeasured scored).Pairwise fun left right =>
    left.2.2.isNan = true → right.2.2.isNan = true
  descending : (sortMeasured scored).Pairwise fun left right =>
    left.2.2.isNan = false → right.2.2.isNan = false →
      right.2.2.lt left.2.2 = true ∨ left.2.2.lt right.2.2 = false ∧ left.1 < right.1
  verdict : decideMeasured subtract threshold margin (sortMeasured scored) =
    decideMeasured subtract threshold margin (sortMeasured (numeric scored))

end Deciding

section Sorting

theorem sorts_iff {left right : Measured} : Sorts left right ↔
    (left.2.2.isNan = right.2.2.isNan ∧ right.2.2.totalKey ≤ left.2.2.totalKey) ∨
      (left.2.2.isNan = true ∧ right.2.2.isNan = false) := by
  unfold Sorts byScoreDescending
  cases hleft : left.2.2.isNan <;> cases hright : right.2.2.isNan <;>
    simp [F64.totalCmp, Int.compare_eq_gt]

theorem sorts_total (left right : Measured) : Sorts left right ∨ Sorts right left := by
  rw [sorts_iff, sorts_iff]
  cases left.2.2.isNan <;> cases right.2.2.isNan <;> simp [le_total]

theorem sorts_trans {first second third : Measured} (h : Sorts first second)
    (hnext : Sorts second third) : Sorts first third := by
  rw [sorts_iff] at h hnext ⊢
  rcases h with ⟨hsame, hkey⟩ | ⟨hnan, hnumber⟩
  · rcases hnext with ⟨hsame', hkey'⟩ | ⟨hnan', hnumber'⟩
    · exact .inl ⟨hsame.trans hsame', hkey'.trans hkey⟩
    · exact .inr ⟨hsame.trans hnan', hnumber'⟩
  · rcases hnext with ⟨hsame', -⟩ | ⟨hnan', -⟩
    · exact .inr ⟨hnan, hsame'.symm.trans hnumber⟩
    · rw [hnumber] at hnan'
      cases hnan'

instance : Std.Total Sorts := ⟨sorts_total⟩

instance : IsTrans Measured Sorts := ⟨fun _ _ _ => sorts_trans⟩

variable {scored : List Measured}

theorem sortMeasured_sorted (scored : List Measured) :
    (sortMeasured scored).Pairwise Sorts :=
  List.pairwise_insertionSort Sorts scored

theorem mem_sortMeasured {candidate : Measured} :
    candidate ∈ sortMeasured scored ↔ candidate ∈ scored :=
  List.mem_insertionSort Sorts

theorem sortMeasured_head (hnan : ∃ candidate ∈ scored, candidate.2.2.isNan = true) :
    ∃ best rest, sortMeasured scored = best :: rest ∧ best.2.2.isNan = true := by
  obtain ⟨candidate, hmem, hcandidate⟩ := hnan
  have hsorted := sortMeasured_sorted scored
  have hin := mem_sortMeasured.mpr hmem
  cases hsort : sortMeasured scored with
  | nil =>
    rw [hsort] at hin
    cases hin
  | cons best rest =>
    rw [hsort] at hsorted hin
    refine ⟨best, rest, rfl, ?_⟩
    rcases List.mem_cons.mp hin with rfl | hlater
    · exact hcandidate
    · rcases sorts_iff.mp ((List.pairwise_cons.mp hsorted).1 candidate hlater) with h | h
      · exact h.1.trans hcandidate
      · exact h.1

end Sorting

section Verdicts

variable {subtract : F64 → F64 → F64} {threshold margin : F64}

theorem F64.lt_nan {left right : F64} (h : left.isNan = true) : left.lt right = false := by
  simp [F64.lt, h]

theorem F64.le_nan {left right : F64} (h : right.isNan = true) : left.le right = false := by
  simp [F64.le, h]

theorem decideMeasured_nan {best : Measured} {rest : List Measured}
    (hsubtract : ∀ left right : F64, left.isNan = true → (subtract left right).isNan = true)
    (hbest : best.2.2.isNan = true) :
    decideMeasured subtract threshold margin (best :: rest) =
      .ambiguous [] best.2.1 best.2.2 := by
  have hnone : ((best :: rest).takeWhile fun candidate : Measured =>
      (subtract best.2.2 candidate.2.2).lt margin) = [] :=
    List.takeWhile_cons_of_neg (by simp [F64.lt_nan (hsubtract best.2.2 best.2.2 hbest)])
  have hlead : (leadMeasured subtract best.2.2 rest).isNan = true := by
    cases rest with
    | nil => exact hbest
    | cons next rest => exact hsubtract best.2.2 next.2.2 hbest
  rw [decideMeasured, if_neg (by simp [F64.lt_nan hbest]), if_neg (by simp [F64.le_nan hlead]), hnone]
  rfl

theorem decideMeasured_numeric {field : List Measured}
    (h : ∀ candidate ∈ field, candidate.2.2.isNan = false) (tied : List Nat) (tier : MatchTier)
    (score : F64) (hscore : score.isNan = true) :
    decideMeasured subtract threshold margin field ≠ .ambiguous tied tier score := by
  cases field with
  | nil => simp [decideMeasured]
  | cons best rest =>
    have hbest : best.2.2.isNan = false := h best List.mem_cons_self
    rw [decideMeasured]
    split
    · intro hsame
      cases hsame
    · split
      · intro hsame
        cases hsame
      · intro hsame
        rw [Ruling.ambiguous.injEq] at hsame
        rw [hsame.2.2, hscore] at hbest
        cases hbest

/-- The comparator is a total preorder, but it has what is no number first: of candidates of both
kinds the numbers never win. -/
theorem numbers_never_win (subtract : F64 → F64 → F64) (threshold margin : F64)
    (hsubtract : ∀ left right : F64, left.isNan = true → (subtract left right).isNan = true) :
    (∀ left right, Sorts left right ∨ Sorts right left) ∧
    (∀ first second third, Sorts first second → Sorts second third → Sorts first third) ∧
    ∀ scored : List Measured, (∃ candidate ∈ scored, candidate.2.2.isNan = true) →
      (∃ candidate ∈ scored, candidate.2.2.isNan = false) →
        ¬ NumbersWin subtract threshold margin scored ∧
        (sortMeasured scored).Pairwise (fun left right =>
          right.2.2.isNan = true → left.2.2.isNan = true) ∧
        decideMeasured subtract threshold margin (sortMeasured scored) ≠
          decideMeasured subtract threshold margin (sortMeasured (numeric scored)) := by
  refine ⟨sorts_total, fun _ _ _ => sorts_trans, ?_⟩
  intro scored hnan hnumber
  obtain ⟨best, rest, hsort, hbest⟩ := sortMeasured_head hnan
  have hverdict : decideMeasured subtract threshold margin (sortMeasured scored) ≠
      decideMeasured subtract threshold margin (sortMeasured (numeric scored)) := by
    rw [hsort, decideMeasured_nan hsubtract hbest]
    refine (decideMeasured_numeric ?_ [] best.2.1 best.2.2 hbest).symm
    intro candidate hmem
    have hin := (List.mem_filter.mp (mem_sortMeasured.mp hmem)).2
    simpa using hin
  refine ⟨fun hwin => hverdict hwin.verdict, ?_, hverdict⟩
  refine (sortMeasured_sorted scored).imp ?_
  intro left right hsorts hright
  rcases sorts_iff.mp hsorts with h | h
  · exact h.1.trans hright
  · exact h.1

def nineTenths : F64 := ⟨0x3feccccccccccccd⟩

def noNumber : F64 := ⟨0x7ff8000000000000⟩

def carried (left right : F64) : F64 :=
  if left.isNan then left else if right.isNan then right else ⟨0⟩

/-- The option that measured nothing is put before the one that measured nine tenths. -/
theorem numbers_lose : ¬ ∀ scored : List Measured,
    (∃ candidate ∈ scored, candidate.2.2.isNan = true) →
      (∃ candidate ∈ scored, candidate.2.2.isNan = false) →
        NumbersWin carried nineTenths nineTenths scored := by
  intro h
  have hwin := h [(0, .fuzzy, nineTenths), (1, .fuzzy, noNumber)]
    ⟨_, List.mem_cons_of_mem _ List.mem_cons_self, by decide⟩ ⟨_, List.mem_cons_self, by decide⟩
  have hsort : sortMeasured [(0, .fuzzy, nineTenths), (1, .fuzzy, noNumber)] =
      [(1, .fuzzy, noNumber), (0, .fuzzy, nineTenths)] := by decide
  have hbefore := hwin.before
  rw [hsort] at hbefore
  have hfirst := (List.pairwise_cons.mp hbefore).1 _ List.mem_cons_self
  exact absurd (hfirst (by decide)) (by decide)

theorem numbers_never_win_two :
    ¬ NumbersWin carried nineTenths nineTenths
      [(0, .fuzzy, nineTenths), (1, .fuzzy, noNumber)] := by
  refine ((numbers_never_win carried nineTenths nineTenths ?_).2.2 _
    ⟨_, List.mem_cons_of_mem _ List.mem_cons_self, by decide⟩
    ⟨_, List.mem_cons_self, by decide⟩).1
  intro left right hnan
  unfold carried
  rw [if_pos hnan]
  exact hnan

end Verdicts

end LogicalWorks.Session
