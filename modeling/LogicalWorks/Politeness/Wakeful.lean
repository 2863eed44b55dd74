import LogicalWorks.Politeness.OnePredicate
import LogicalWorks.Lib.Latest

/-! How long a deferral sleeps: the latest of the waits its constraints ask for, and whether the
host could have been let in sooner. -/
namespace LogicalWorks.Politeness
open Session (Text)
open Ecs (saturatingAdd)

theorem DeferralKind.eq_of_rank {left right : DeferralKind} (h : left.rank = right.rank) :
    left = right := by
  cases left <;> cases right <;> first | rfl | cases h

theorem ConstraintKey.eq_of_place {left right : ConstraintKey} (hrank : left.rank = right.rank)
    (htext : left.text = right.text) : left = right := by
  cases left with
  | host text =>
    cases right with
    | host other => exact congrArg host htext
    | origin other | egress other => cases hrank
  | origin text =>
    cases right with
    | origin other => exact congrArg origin htext
    | host other | egress other => cases hrank
  | egress text =>
    cases right with
    | egress other => exact congrArg egress htext
    | host other | origin other => cases hrank

namespace Verdict

def place : Verdict → Nat × Nat × Nat × Text
  | defer resumeAt kind key => (resumeAt, kind.rank, key.rank, key.text)
  | admit_ | reject _ => (0, 0, 0, [])

def placeOrder : Nat × Nat × Nat × Text → Nat × Nat × Nat × Text → Ordering :=
  compareLex (compareOn fun place => place.1) (compareLex (compareOn fun place => place.2.1)
    (compareLex (compareOn fun place => place.2.2.1) (compareOn fun place => place.2.2.2)))

instance : Std.TransCmp placeOrder := by
  unfold placeOrder
  infer_instance

theorem eq_of_placeOrder {left right : Nat × Nat × Nat × Text} (h : placeOrder left right = .eq) :
    left = right := by
  obtain ⟨leftAt, leftKind, leftRank, leftText⟩ := left
  obtain ⟨rightAt, rightKind, rightRank, rightText⟩ := right
  simp only [placeOrder, compareLex, compareOn, Ordering.then_eq_eq] at h
  obtain ⟨hat, hkind, hrank, htext⟩ := h
  rw [Std.LawfulEqCmp.eq_of_compare hat, Std.LawfulEqCmp.eq_of_compare hkind,
    Std.LawfulEqCmp.eq_of_compare hrank, Std.LawfulEqCmp.eq_of_compare htext]

def IsDefer (verdict : Verdict) : Prop :=
  ∃ resumeAt kind key, verdict = .defer resumeAt kind key

theorem exceeds_iff {offered held : Verdict} (hoffered : offered.IsDefer) (hheld : held.IsDefer) :
    offered.exceeds held = true ↔ placeOrder offered.place held.place = .gt := by
  obtain ⟨offeredAt, offeredKind, offeredKey, rfl⟩ := hoffered
  obtain ⟨heldAt, heldKind, heldKey, rfl⟩ := hheld
  exact Ordering.isGT_iff_eq_gt

theorem eq_of_place {left right : Verdict} (hleft : left.IsDefer) (hright : right.IsDefer)
    (h : left.place = right.place) : left = right := by
  obtain ⟨leftAt, leftKind, leftKey, rfl⟩ := hleft
  obtain ⟨rightAt, rightKind, rightKey, rfl⟩ := hright
  simp only [place, Prod.mk.injEq] at h
  obtain ⟨rfl, hkind, hrank, htext⟩ := h
  rw [DeferralKind.eq_of_rank hkind, ConstraintKey.eq_of_place hrank htext]

theorem strictOn_exceeds : StrictOn IsDefer exceeds where
  asymm := by
    intro left right hleft hright h
    rw [exceeds_iff hleft hright, Std.OrientedCmp.gt_iff_lt] at h
    rw [← Bool.not_eq_true, exceeds_iff hright hleft, h]
    exact nofun
  trans := by
    intro left middle right hleft hmiddle hright hfirst hsecond
    rw [exceeds_iff hleft hmiddle] at hfirst
    rw [exceeds_iff hmiddle hright] at hsecond
    rw [exceeds_iff hleft hright]
    exact Std.TransCmp.gt_trans hfirst hsecond
  connected := by
    intro left right hleft hright hless hmore
    rw [← Bool.not_eq_true, exceeds_iff hleft hright] at hless
    rw [← Bool.not_eq_true, exceeds_iff hright hleft, Std.OrientedCmp.gt_iff_lt] at hmore
    apply eq_of_place hleft hright
    apply eq_of_placeOrder
    cases horder : placeOrder left.place right.place with
    | lt => exact absurd horder hmore
    | eq => rfl
    | gt => exact absurd horder hless

theorem le_of_not_exceeds {offeredAt heldAt : Nat} {offeredKind heldKind : DeferralKind}
    {offeredKey heldKey : ConstraintKey}
    (h : (defer offeredAt offeredKind offeredKey).exceeds (defer heldAt heldKind heldKey) = false) :
    offeredAt ≤ heldAt := by
  by_contra hlate
  have hgt : compare offeredAt heldAt = .gt := Nat.compare_eq_gt.mpr (Nat.not_le.mp hlate)
  simp [exceeds, hgt] at h

end Verdict

namespace Frontier

variable {frontier : Frontier} {host : Text} {at_ late : Nat} {keys : List ConstraintKey}
  {verdict : Verdict}

def waits (frontier : Frontier) (keys : List ConstraintKey) (at_ : Nat) : List Verdict :=
  keys.filterMap fun key => frontier.saturated key at_

theorem binding_eq_foldl (frontier : Frontier) (keys : List ConstraintKey) (at_ : Nat) :
    frontier.binding keys at_ = (frontier.waits keys at_).foldl (latest Verdict.exceeds) none := by
  unfold binding waits
  generalize (none : Option Verdict) = held
  induction keys generalizing held with
  | nil => rfl
  | cons key rest ih =>
    rw [List.foldl_cons, List.filterMap_cons, ih]
    cases hkey : frontier.saturated key at_ with
    | none => simp [weigh, hkey]
    | some wait =>
      rw [List.foldl_cons]
      congr 1
      cases held with
      | none => simp [weigh, hkey, later, latest]
      | some other =>
        simp only [weigh, hkey, later, latest]
        split
        · rfl
        · rfl

theorem isDefer_of_mem_waits (h : verdict ∈ frontier.waits keys at_) : verdict.IsDefer := by
  obtain ⟨key, -, hkey⟩ := List.mem_filterMap.mp h
  obtain ⟨resumeAt, rfl⟩ := saturated_isDefer hkey
  exact ⟨resumeAt, .rateLimited, key, rfl⟩

theorem binding_eq_some : frontier.binding keys at_ = some verdict ↔
    verdict ∈ frontier.waits keys at_ ∧
      ∀ wait ∈ frontier.waits keys at_, wait.exceeds verdict = false := by
  rw [binding_eq_foldl]
  exact Verdict.strictOn_exceeds.foldl_latest_eq_some fun _ => isDefer_of_mem_waits

theorem binding_perm {others : List ConstraintKey} (h : others.Perm keys) :
    frontier.binding others at_ = frontier.binding keys at_ := by
  rw [binding_eq_foldl, binding_eq_foldl]
  exact Verdict.strictOn_exceeds.foldl_latest_perm (fun _ => isDefer_of_mem_waits)
    (h.filterMap _)

/-- Everything the predicate can answer where it does not admit or reject. -/
theorem decide_eq_defer {resumeAt : Nat} {kind : DeferralKind} {key : ConstraintKey}
    (h : frontier.decide_ host at_ = .defer resumeAt kind key) :
    host ∉ frontier.abandons ∧
      ((frontier.resolutions.get host = none ∧ resumeAt = at_ ∧ kind = .originUnmapped) ∨
        (frontier.resolutions.get host = some .failed ∧ kind = .resolutionFailed) ∨
        ((∃ origin, frontier.resolutions.get host = some (.origin origin)) ∧
          ((frontier.effectiveRules (.host host) at_ = .notFetched ∧ resumeAt = at_ ∧
              kind = .rulesNotFetched) ∨
            (∃ since, frontier.effectiveRules (.host host) at_ = .unreachable since ∧
              resumeAt = saturatingAdd at_ frontier.policy.retryAfterFailure ∧
                kind = .originPolicyUnreachable) ∨
            (kind = .rateLimited ∧ frontier.binding (frontier.keysFor host) at_ =
              some (.defer resumeAt .rateLimited key))))) := by
  unfold decide_ at h
  by_cases habandoned : frontier.abandons.contains host
  · rw [if_pos habandoned] at h
    cases h
  · rw [if_neg habandoned] at h
    refine ⟨fun hmem => habandoned (List.elem_eq_true_of_mem hmem), ?_⟩
    cases hresolved : frontier.resolutions.get host with
    | none =>
      rw [hresolved] at h
      cases h
      exact Or.inl ⟨rfl, rfl, rfl⟩
    | some resolved =>
      rw [hresolved] at h
      cases resolved with
      | failed =>
        cases h
        exact Or.inr (Or.inl ⟨rfl, rfl⟩)
      | doesNotExist => cases h
      | origin origin =>
        refine Or.inr (Or.inr ⟨⟨origin, rfl⟩, ?_⟩)
        have hwaits : (frontier.binding (frontier.keysFor host) at_).getD .admit_ =
            .defer resumeAt kind key → kind = .rateLimited ∧
              frontier.binding (frontier.keysFor host) at_ =
                some (.defer resumeAt .rateLimited key) := by
          intro hbound
          cases hbinding : frontier.binding (frontier.keysFor host) at_ with
          | none =>
            rw [hbinding] at hbound
            cases hbound
          | some verdict =>
            rw [hbinding] at hbound
            obtain ⟨waitAt, waitKey, rfl⟩ := binding_isWait hbinding
            cases hbound
            exact ⟨rfl, rfl⟩
        cases hrules : frontier.effectiveRules (.host host) at_ with
        | disallowed rule =>
          rw [hrules] at h
          cases h
        | notFetched =>
          rw [hrules] at h
          cases h
          exact Or.inl ⟨rfl, rfl, rfl⟩
        | unreachable since =>
          rw [hrules] at h
          cases h
          exact Or.inr (Or.inl ⟨since, rfl, rfl, rfl⟩)
        | allowed =>
          rw [hrules] at h
          exact Or.inr (Or.inr (hwaits h))
        | noRules =>
          rw [hrules] at h
          exact Or.inr (Or.inr (hwaits h))

/-- A deferral that names an instant lets nothing in before it, and where the host's constraints
hold it the instant is the latest of theirs, in whatever order they are examined. -/
structure SleepsWell (frontier : Frontier) (host : Text) (at_ : Nat) : Prop where
  sleeps : ∀ resumeAt kind key, (frontier.admit_ host at_).1 = .defer resumeAt kind key →
    at_ < resumeAt → ∀ early, at_ ≤ early → early < resumeAt →
      ∀ permit, (frontier.admit_ host early).1 ≠ .admit_ permit
  latest : ∀ resumeAt key, (frontier.admit_ host at_).1 = .defer resumeAt .rateLimited key →
    key ∈ frontier.keysFor host ∧
      frontier.saturated key at_ = some (.defer resumeAt .rateLimited key) ∧
      ∀ other ∈ frontier.keysFor host, ∀ otherAt, frontier.saturated other at_ =
        some (.defer otherAt .rateLimited other) → otherAt ≤ resumeAt
  ordered : ∀ keys : List ConstraintKey, keys.Perm (frontier.keysFor host) →
    frontier.binding keys at_ = frontier.binding (frontier.keysFor host) at_

/-- The host is held for rules out of reach, whose grace ends before the instant it is given, and
at that end or soon after each of its constraints has room. -/
def GraceEndsSooner (frontier : Frontier) (host : Text) (at_ : Nat) : Prop :=
  let resumeAt := saturatingAdd at_ frontier.policy.retryAfterFailure
  at_ < resumeAt ∧
    (∃ since, (frontier.entry (.host host)).rules = .unreachable since ∧
      at_ - since < frontier.policy.unreachableGrace ∧
      frontier.policy.unreachableGrace ≤ resumeAt - 1 - since) ∧
    ∀ key ∈ frontier.keysFor host, (frontier.entry key).blockedUntil < resumeAt ∧
      (frontier.entry key).inFlight < (frontier.entry key).window

theorem admit_eq_defer {resumeAt : Nat} {kind : DeferralKind} {key : ConstraintKey} :
    (frontier.admit_ host at_).1 = .defer resumeAt kind key ↔
      frontier.decide_ host at_ = .defer resumeAt kind key := by
  unfold admit_ reserve
  cases hverdict : frontier.decide_ host at_ with
  | admit_ =>
    by_cases hordinal : frontier.nextOrdinal + 1 ≤ u64Max
    · simp [Verdict.refusal, hordinal]
    · simp [Verdict.refusal, hordinal]
  | defer otherAt otherKind otherKey => simp [Verdict.refusal]
  | reject reason => simp [Verdict.refusal]

theorem admits_permit_iff :
    (∃ permit, (frontier.admit_ host at_).1 = .admit_ permit) ↔
      frontier.decide_ host at_ = .admit_ ∧ frontier.nextOrdinal + 1 ≤ u64Max := by
  unfold admit_ reserve
  cases hverdict : frontier.decide_ host at_ with
  | admit_ =>
    by_cases hordinal : frontier.nextOrdinal + 1 ≤ u64Max
    · simp [Verdict.refusal, hordinal]
    · simp [Verdict.refusal, hordinal]
  | defer otherAt otherKind otherKey => simp [Verdict.refusal]
  | reject reason => simp [Verdict.refusal]

/-- The rules that hold a host out of reach at an instant are those on record. -/
theorem effectiveRules_eq_unreachable {since : Nat} :
    frontier.effectiveRules (.host host) at_ = .unreachable since ↔
      (frontier.entry (.host host)).rules = .unreachable since ∧
        at_ - since < frontier.policy.unreachableGrace := by
  rw [effectiveRules_eq]
  cases hrules : (frontier.entry (.host host)).rules with
  | unreachable stored =>
    simp only [RulesState.effective]
    split
    · rename_i hover
      simp only [reduceCtorEq, RulesState.unreachable.injEq, false_iff, not_and, Nat.not_lt]
      rintro rfl
      exact hover
    · rename_i hinside
      simp only [RulesState.unreachable.injEq]
      constructor
      · rintro rfl
        exact ⟨rfl, Nat.not_le.mp hinside⟩
      · rintro ⟨rfl, -⟩
        rfl
  | notFetched => simp [RulesState.effective]
  | allowed => simp [RulesState.effective]
  | disallowed rule => simp [RulesState.effective]
  | noRules => simp [RulesState.effective]

theorem not_admit_of_wait {resumeAt early : Nat} {key : ConstraintKey}
    (hbinding : frontier.binding (frontier.keysFor host) at_ =
      some (.defer resumeAt .rateLimited key)) (hlate : at_ < resumeAt) (hearly : early < resumeAt) :
    frontier.decide_ host early ≠ .admit_ := by
  intro hadmitted
  obtain ⟨hmem, -⟩ := binding_eq_some.mp hbinding
  obtain ⟨named, hnamed, hsaturated⟩ := List.mem_filterMap.mp hmem
  obtain ⟨-, -, -, hroom⟩ := decide_eq_admit.mp hadmitted
  obtain ⟨hblocked, -⟩ := saturated_eq_none.mp (hroom named hnamed)
  rw [saturated_eq] at hsaturated
  split at hsaturated
  · cases hsaturated
    omega
  · split at hsaturated
    · cases hsaturated
      omega
    · cases hsaturated

end Frontier

def outOfReach : World :=
  ((World.new .default "eth0".toList 0).act
    (.observeResolution "a".toList (.origin "o".toList))).act
      (.observeRules (.host "a".toList) (.unreachable 0))

def unreachableGrace : Nat := PolitenessPolicy.default.unreachableGrace

def nearEnd : Nat := unreachableGrace - 30 * 1000000000

end LogicalWorks.Politeness
