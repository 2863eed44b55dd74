import LogicalWorks.Journal.Recover

/-! The fold every continuation carries: the unresolved attempts in full identity, and one
record per action for everything already settled. -/
namespace LogicalWorks.Journal

def AttemptStatus.isSettled : AttemptStatus → Bool
  | .prepared | .outcomeUnknown => false
  | .applied | .notApplied | .verified | .verificationFailed => true

structure Carry where
  settled : List SettledAttempt
  unresolved : List UnresolvedAttempt
  foldedAt : Index ActionId Nat

namespace Recovered

def settledRung (recovered : Recovered) (key : EffectKey) : EventKind :=
  match (recovered.history key).getLast? with
  | some change =>
    if change.toStatus = .verified ∨ change.toStatus = .verificationFailed then .verified
    else .outcomeObserved
  | none => .outcomeObserved

def settledRecord (recovered : Recovered) (attempt : Attempt) : SettledAttempt :=
  .new attempt.key (recovered.settledRung attempt.key) attempt.status attempt.verification

/-- An action already folded is replaced in place, so the order stays first-seen. -/
def foldSettled (carry : Carry) (record : SettledAttempt) : Carry :=
  match carry.foldedAt.get record.action with
  | some slot => { carry with settled := carry.settled.set slot record }
  | none =>
    { carry with
      settled := carry.settled ++ [record]
      foldedAt := carry.foldedAt.insert record.action carry.settled.length }

def carryAttempt (recovered : Recovered) (carry : Carry) (attempt : Attempt) : Carry :=
  match attempt.status with
  | .prepared =>
    { carry with unresolved := carry.unresolved ++ [.new attempt.key .intentAdmitted] }
  | .outcomeUnknown =>
    { carry with unresolved := carry.unresolved ++ [.new attempt.key .dispatchPrepared] }
  | _ => foldSettled carry (recovered.settledRecord attempt)

def carry (recovered : Recovered) (attempts : List Attempt) : Carry :=
  attempts.foldl recovered.carryAttempt ⟨[], [], Index.empty⟩

def carried (recovered : Recovered) : List SettledAttempt × List UnresolvedAttempt :=
  let carry := recovered.carry recovered.attempts
  (carry.settled, carry.unresolved)

end Recovered

def Attempt.unresolved (attempt : Attempt) : Option UnresolvedAttempt :=
  match attempt.status with
  | .prepared => some (.new attempt.key .intentAdmitted)
  | .outcomeUnknown => some (.new attempt.key .dispatchPrepared)
  | _ => none

def latestSettled (attempts : List Attempt) (action : ActionId) : Option Attempt :=
  (attempts.filter fun attempt =>
    attempt.status.isSettled && attempt.key.action = action).getLast?

theorem latestSettled_mem {attempts : List Attempt} {action : ActionId} {attempt : Attempt}
    (h : latestSettled attempts action = some attempt) :
    attempt ∈ attempts ∧ attempt.status.isSettled = true ∧ attempt.key.action = action := by
  have hmem := List.mem_of_getLast? h
  rw [List.mem_filter, Bool.and_eq_true, decide_eq_true_eq] at hmem
  exact hmem

theorem latestSettled_append (attempts : List Attempt) (attempt : Attempt) (action : ActionId) :
    latestSettled (attempts ++ [attempt]) action =
      if attempt.status.isSettled = true ∧ attempt.key.action = action then some attempt
      else latestSettled attempts action := by
  unfold latestSettled
  rw [List.filter_append]
  by_cases h : attempt.status.isSettled = true ∧ attempt.key.action = action
  · simp [h]
  · rw [if_neg h]
    have hfilter : [attempt].filter (fun attempt : Attempt =>
        attempt.status.isSettled && decide (attempt.key.action = action)) = [] := by
      simpa using h
    rw [hfilter, List.append_nil]

theorem latestSettled_ne_none {attempts : List Attempt} {attempt : Attempt}
    (hmem : attempt ∈ attempts) (hsettled : attempt.status.isSettled = true) :
    ∃ latest, latestSettled attempts attempt.key.action = some latest := by
  rw [← Option.ne_none_iff_exists']
  intro hnone
  have hempty := List.getLast?_eq_none_iff.mp hnone
  have hfilter := List.filter_eq_nil_iff.mp hempty attempt hmem
  simp [hsettled] at hfilter

namespace Recovered

/-- What the fold keeps while it reads the report: each folded action is at the place the
map names, holding the record of the settled attempt listed last so far. -/
structure Folds (recovered : Recovered) (carry : Carry) (attempts : List Attempt) : Prop where
  slot : ∀ action index, carry.foldedAt.get action = some index → ∃ attempt,
    latestSettled attempts action = some attempt ∧
      carry.settled[index]? = some (recovered.settledRecord attempt)
  unfolded : ∀ action, carry.foldedAt.get action = none → latestSettled attempts action = none
  placed : ∀ index record, carry.settled[index]? = some record →
    carry.foldedAt.get record.action = some index
  unresolved : carry.unresolved = attempts.filterMap Attempt.unresolved

@[simp] theorem action_settledRecord (recovered : Recovered) (attempt : Attempt) :
    (recovered.settledRecord attempt).action = attempt.key.action := rfl

theorem carryAttempt_settled (recovered : Recovered) (carry : Carry) {attempt : Attempt}
    (h : attempt.status.isSettled = true) :
    recovered.carryAttempt carry attempt =
      foldSettled carry (recovered.settledRecord attempt) := by
  unfold carryAttempt
  cases hstatus : attempt.status with
  | prepared => simp [hstatus, AttemptStatus.isSettled] at h
  | outcomeUnknown => simp [hstatus, AttemptStatus.isSettled] at h
  | applied | notApplied | verified | verificationFailed => rfl

theorem carryAttempt_unresolved (recovered : Recovered) (carry : Carry) {attempt : Attempt}
    (h : attempt.status.isSettled = false) :
    ∃ record, attempt.unresolved = some record ∧
      recovered.carryAttempt carry attempt =
        { carry with unresolved := carry.unresolved ++ [record] } := by
  unfold carryAttempt Attempt.unresolved
  cases hstatus : attempt.status with
  | prepared => exact ⟨_, rfl, rfl⟩
  | outcomeUnknown => exact ⟨_, rfl, rfl⟩
  | applied | notApplied | verified | verificationFailed =>
    simp [hstatus, AttemptStatus.isSettled] at h

theorem unresolved_eq_none {attempt : Attempt} (h : attempt.status.isSettled = true) :
    attempt.unresolved = none := by
  unfold Attempt.unresolved
  cases hstatus : attempt.status <;> simp_all [AttemptStatus.isSettled]

section Folds

variable {recovered : Recovered} {carry : Carry} {attempts : List Attempt} {attempt : Attempt}

theorem Folds.unsettled (h : recovered.Folds carry attempts)
    (hsettled : attempt.status.isSettled = false) :
    recovered.Folds (recovered.carryAttempt carry attempt) (attempts ++ [attempt]) := by
  obtain ⟨record, hrecord, hcarry⟩ := carryAttempt_unresolved recovered carry hsettled
  have hlatest : ∀ action, latestSettled (attempts ++ [attempt]) action =
      latestSettled attempts action := by
    intro action
    rw [latestSettled_append, if_neg (by simp [hsettled])]
  rw [hcarry]
  refine ⟨?_, ?_, h.placed, ?_⟩
  · intro action index hindex
    rw [hlatest]
    exact h.slot action index hindex
  · intro action haction
    rw [hlatest]
    exact h.unfolded action haction
  · simp [h.unresolved, hrecord]

theorem Folds.replaced (h : recovered.Folds carry attempts)
    (hsettled : attempt.status.isSettled = true) {slot : Nat}
    (hslot : carry.foldedAt.get attempt.key.action = some slot) :
    recovered.Folds { carry with
      settled := carry.settled.set slot (recovered.settledRecord attempt) }
      (attempts ++ [attempt]) := by
  have hunresolved : carry.unresolved =
      (attempts ++ [attempt]).filterMap Attempt.unresolved := by
    simp [h.unresolved, unresolved_eq_none hsettled]
  obtain ⟨old, hlatestOld, hold⟩ := h.slot _ slot hslot
  have holdAction := (latestSettled_mem hlatestOld).2.2
  have hlt : slot < carry.settled.length := (List.getElem?_eq_some_iff.mp hold).1
  refine ⟨?_, ?_, ?_, hunresolved⟩
  · intro action index hindex
    rw [latestSettled_append]
    by_cases haction : attempt.key.action = action
    · subst haction
      have hsame : slot = index := Option.some.inj (hslot.symm.trans hindex)
      subst hsame
      exact ⟨attempt, by simp [hsettled], by simp [hlt]⟩
    · have hne : slot ≠ index := by
        rintro rfl
        obtain ⟨other, hlatest, hother⟩ := h.slot action slot hindex
        have hrecord := Option.some.inj (hold.symm.trans hother)
        have hkeys : old.key.action = other.key.action :=
          congrArg SettledAttempt.action hrecord
        exact haction (holdAction.symm.trans
          (hkeys.trans (latestSettled_mem hlatest).2.2))
      rw [if_neg (by simp [haction]), List.getElem?_set_ne hne]
      exact h.slot action index hindex
  · intro action hnone
    rw [latestSettled_append, if_neg]
    · exact h.unfolded action hnone
    · rintro ⟨-, rfl⟩
      rw [hslot] at hnone
      cases hnone
  · intro index record hrecord
    rw [List.getElem?_set] at hrecord
    split at hrecord
    · rename_i hindex
      cases hrecord
      rw [← hindex]
      exact hslot
    · exact h.placed index record hrecord

theorem Folds.added (h : recovered.Folds carry attempts)
    (hsettled : attempt.status.isSettled = true)
    (hslot : carry.foldedAt.get attempt.key.action = none) :
    recovered.Folds { carry with
      settled := carry.settled ++ [recovered.settledRecord attempt]
      foldedAt := carry.foldedAt.insert attempt.key.action carry.settled.length }
      (attempts ++ [attempt]) := by
  have hunresolved : carry.unresolved =
      (attempts ++ [attempt]).filterMap Attempt.unresolved := by
    simp [h.unresolved, unresolved_eq_none hsettled]
  refine ⟨?_, ?_, ?_, hunresolved⟩
  · intro action index hindex
    rw [latestSettled_append]
    simp only [Index.get_insert] at hindex
    split at hindex
    · rename_i haction
      cases hindex
      exact ⟨attempt, by simp [hsettled, haction], by simp⟩
    · rename_i haction
      obtain ⟨other, hlatest, hother⟩ := h.slot action index hindex
      refine ⟨other, ?_, ?_⟩
      · rw [if_neg (fun hboth => haction hboth.2.symm)]
        exact hlatest
      · rw [List.getElem?_append_left (List.getElem?_eq_some_iff.mp hother).1]
        exact hother
  · intro action hnone
    simp only [Index.get_insert] at hnone
    split at hnone
    · cases hnone
    · rename_i haction
      rw [latestSettled_append, if_neg (fun hboth => haction hboth.2.symm)]
      exact h.unfolded action hnone
  · intro index record hrecord
    simp only [Index.get_insert]
    rcases Nat.lt_or_ge index carry.settled.length with hlt | hge
    · rw [List.getElem?_append_left hlt] at hrecord
      have hplaced := h.placed index record hrecord
      rw [if_neg]
      · exact hplaced
      · intro haction
        rw [haction, hslot] at hplaced
        cases hplaced
    · rw [List.getElem?_append_right hge] at hrecord
      have hindex : index - carry.settled.length = 0 := by
        have hlt := (List.getElem?_eq_some_iff.mp hrecord).1
        simp only [List.length_singleton] at hlt
        omega
      rw [hindex] at hrecord
      cases hrecord
      rw [if_pos (action_settledRecord recovered attempt)]
      have heq : index = carry.settled.length := by omega
      rw [heq]

end Folds

theorem folds_carryAttempt {recovered : Recovered} {carry : Carry} {attempts : List Attempt}
    (h : recovered.Folds carry attempts) (attempt : Attempt) :
    recovered.Folds (recovered.carryAttempt carry attempt) (attempts ++ [attempt]) := by
  cases hsettled : attempt.status.isSettled with
  | false => exact h.unsettled hsettled
  | true =>
    rw [carryAttempt_settled recovered carry hsettled]
    unfold foldSettled
    rw [action_settledRecord]
    cases hslot : carry.foldedAt.get attempt.key.action with
    | some slot => exact h.replaced hsettled hslot
    | none => exact h.added hsettled hslot

theorem folds_carry (recovered : Recovered) (attempts : List Attempt) :
    recovered.Folds (recovered.carry attempts) attempts := by
  induction attempts using List.reverseRecOn with
  | nil =>
    refine ⟨?_, ?_, ?_, rfl⟩
    · intro action index hindex
      simp [carry] at hindex
    · intro action _
      rfl
    · intro index record hrecord
      simp [carry] at hrecord
  | append_singleton rest attempt ih =>
    have hstep := folds_carryAttempt ih attempt
    have hconcat : recovered.carry (rest ++ [attempt]) =
        recovered.carryAttempt (recovered.carry rest) attempt := by
      simp [carry]
    rwa [← hconcat] at hstep

theorem mem_carried_settled (recovered : Recovered) (record : SettledAttempt) :
    record ∈ recovered.carried.1 ↔ ∃ attempt,
      latestSettled recovered.attempts record.action = some attempt ∧
        record = recovered.settledRecord attempt := by
  have h := folds_carry recovered recovered.attempts
  constructor
  · intro hmem
    obtain ⟨index, hindex⟩ := List.getElem?_of_mem hmem
    obtain ⟨attempt, hlatest, hget⟩ := h.slot _ index (h.placed index record hindex)
    exact ⟨attempt, hlatest, Option.some.inj (hindex.symm.trans hget)⟩
  · rintro ⟨attempt, hlatest, rfl⟩
    cases hslot : (recovered.carry recovered.attempts).foldedAt.get
        (recovered.settledRecord attempt).action with
    | none =>
      rw [h.unfolded _ hslot] at hlatest
      cases hlatest
    | some index =>
      obtain ⟨other, hother, hget⟩ := h.slot _ index hslot
      have hsame : other = attempt := Option.some.inj (hother.symm.trans hlatest)
      subst hsame
      exact List.mem_of_getElem? hget

theorem nodup_carried_actions (recovered : Recovered) :
    (recovered.carried.1.map SettledAttempt.action).Nodup := by
  have h := folds_carry recovered recovered.attempts
  rw [List.nodup_iff_getElem?_ne_getElem?]
  intro left right hlt hright heq
  simp only [List.getElem?_map, List.length_map] at heq hright
  have hrightGet := List.getElem?_eq_getElem hright
  have hleftGet := List.getElem?_eq_getElem (Nat.lt_trans hlt hright)
  rw [hrightGet, hleftGet, Option.map_some, Option.map_some] at heq
  have hleft := h.placed left _ hleftGet
  have hright' := h.placed right _ hrightGet
  rw [Option.some.inj heq, hright'] at hleft
  have := Option.some.inj hleft
  omega

theorem carried_unresolved (recovered : Recovered) :
    recovered.carried.2 = recovered.attempts.filterMap Attempt.unresolved :=
  (folds_carry recovered recovered.attempts).unresolved

theorem settledRung_cases (recovered : Recovered) (key : EffectKey) :
    recovered.settledRung key = .outcomeObserved ∨ recovered.settledRung key = .verified := by
  unfold settledRung
  split
  · split
    · exact Or.inr rfl
    · exact Or.inl rfl
  · exact Or.inl rfl

@[simp] theorem seeded_settledRecord (recovered : Recovered) (attempt : Attempt) :
    (recovered.settledRecord attempt).seeded = some attempt := by
  simp [SettledAttempt.seeded, settledRecord]

end Recovered

end LogicalWorks.Journal
