import LogicalWorks.Politeness.Wakeful

/-! What one server's answers do to a host that shares neither key with them: nothing, but for the
egress slot a completion gives back.  Completions of unrelated requests commute. -/
namespace LogicalWorks.Politeness
open Session (Text)
open Ecs (saturatingAdd)

namespace Frontier

variable {frontier : Frontier} {keys : List ConstraintKey} {change : KeyState → KeyState}

theorem get_updateAll (hnodup : keys.Nodup) (asked : ConstraintKey) :
    (frontier.updateAll keys change).state.get asked =
      if asked ∈ keys then some (change (frontier.entry asked)) else frontier.state.get asked := by
  induction keys generalizing frontier with
  | nil => simp [updateAll]
  | cons key rest ih =>
    have hstep : frontier.updateAll (key :: rest) change =
        (update change frontier key).updateAll rest change := rfl
    obtain ⟨hnotin, hrest⟩ := List.nodup_cons.mp hnodup
    rw [hstep, ih hrest, entry_update]
    by_cases hkey : asked = key
    · subst hkey
      simp [hnotin, update, Index.get_insert]
    · simp [hkey, update, Index.get_insert]

def settled (policy : PolitenessPolicy) (permit : InFlightPermit) (outcome : Outcome)
    (key : ConstraintKey) (entry : KeyState) : KeyState :=
  if key ∈ permit.serverKeys then entry.release.settle policy outcome else entry.release

theorem get_completed {permit : InFlightPermit} (hkeyed : permit.WellKeyed) (outcome : Outcome)
    (key : ConstraintKey) :
    (frontier.completed permit outcome).state.get key =
      if key ∈ permit.keys then
        some (settled frontier.policy permit outcome key (frontier.entry key))
      else frontier.state.get key := by
  have hserver : key ∈ permit.serverKeys → key ∈ permit.keys :=
    fun hmem => List.mem_append_left _ hmem
  unfold completed
  rw [get_updateAll hkeyed.serverKeys_nodup, get_updateAll hkeyed.keys_nodup,
    entry_updateAll hkeyed.keys_nodup]
  change (if key ∈ permit.serverKeys then
      some (KeyState.settle frontier.policy outcome
        (if key ∈ permit.keys then (frontier.entry key).release else frontier.entry key))
    else if key ∈ permit.keys then some (frontier.entry key).release
    else frontier.state.get key) = _
  unfold settled
  by_cases hmem : key ∈ permit.serverKeys
  · simp [hmem, hserver hmem]
  · simp [hmem]

theorem entry_completed {permit : InFlightPermit} (hkeyed : permit.WellKeyed) (outcome : Outcome)
    (key : ConstraintKey) :
    (frontier.completed permit outcome).entry key =
      if key ∈ permit.keys then settled frontier.policy permit outcome key (frontier.entry key)
      else frontier.entry key := by
  unfold entry
  rw [get_completed hkeyed]
  split
  · rfl
  · unfold fresh completed
    simp

theorem completed_eq (frontier : Frontier) (permit : InFlightPermit) (outcome : Outcome) :
    frontier.completed permit outcome =
      { frontier with
        state := (frontier.completed permit outcome).state
        reservations := frontier.reservations.erase permit.ordinal } := by
  unfold completed
  rw [updateAll_state, updateAll_state]

theorem settled_comm {policy : PolitenessPolicy} {permit other : InFlightPermit}
    {outcome otherOutcome : Outcome} {key : ConstraintKey} (entry : KeyState)
    (hapart : key ∈ permit.serverKeys → key ∉ other.serverKeys) :
    settled policy other otherOutcome key (settled policy permit outcome key entry) =
      settled policy permit outcome key (settled policy other otherOutcome key entry) := by
  have hrelease : ∀ (outcome : Outcome) (entry : KeyState),
      (entry.settle policy outcome).release = entry.release.settle policy outcome := by
    intro outcome entry
    cases outcome with
    | cacheHit => rfl
    | failure => rfl
    | success =>
      by_cases hgrows : policy.increaseAfter ≤ min (entry.successes + 1) u32Max
      · simp [KeyState.settle, KeyState.release, hgrows]
      · simp [KeyState.settle, KeyState.release, hgrows]
  unfold settled
  by_cases hpermit : key ∈ permit.serverKeys
  · rw [if_pos hpermit, if_pos hpermit, if_neg (hapart hpermit), if_neg (hapart hpermit), hrelease]
  · rw [if_neg hpermit, if_neg hpermit]
    by_cases hother : key ∈ other.serverKeys
    · rw [if_pos hother, if_pos hother, hrelease]
    · rw [if_neg hother, if_neg hother]

theorem completed_comm {permit other : InFlightPermit} (hpermit : permit.WellKeyed)
    (hother : other.WellKeyed) (outcome otherOutcome : Outcome)
    (hapart : ∀ key ∈ permit.serverKeys, key ∉ other.serverKeys) :
    (frontier.completed permit outcome).completed other otherOutcome =
      (frontier.completed other otherOutcome).completed permit outcome := by
  have hpolicy : ∀ (permit : InFlightPermit) (outcome : Outcome),
      (frontier.completed permit outcome).policy = frontier.policy := by
    intro permit outcome
    unfold completed
    simp
  have hstate : ((frontier.completed permit outcome).completed other otherOutcome).state =
      ((frontier.completed other otherOutcome).completed permit outcome).state := by
    funext key
    change ((frontier.completed permit outcome).completed other otherOutcome).state.get key =
      ((frontier.completed other otherOutcome).completed permit outcome).state.get key
    rw [get_completed hother, get_completed hpermit, get_completed hpermit, get_completed hother,
      entry_completed hpermit, entry_completed hother, hpolicy, hpolicy]
    by_cases hin : key ∈ permit.keys
    · by_cases hinOther : key ∈ other.keys
      · simp only [hin, hinOther, if_true]
        rw [settled_comm _ (hapart key)]
      · simp only [hin, hinOther, if_true, if_false]
    · by_cases hinOther : key ∈ other.keys
      · simp only [hin, hinOther, if_true, if_false]
      · simp only [hin, hinOther, if_false]
  rw [completed_eq (frontier.completed permit outcome), completed_eq frontier permit,
    completed_eq (frontier.completed other otherOutcome), completed_eq frontier other] at *
  simp only [Frontier.mk.injEq, true_and, and_true] at hstate ⊢
  exact ⟨hstate, Finset.erase_right_comm⟩

def Unrelated (frontier : Frontier) (permit : InFlightPermit) (host : Text) : Prop :=
  .host host ∉ permit.serverKeys ∧
    ∀ origin, frontier.constraints.get host = some origin → origin ∉ permit.serverKeys

variable {host : Text} {permit : InFlightPermit} {at_ : Nat}

theorem Unrelated.not_mem (h : frontier.Unrelated permit host) (hkeyed : permit.WellKeyed)
    {egress : Text} (hegress : frontier.egress = .egress egress) {key : ConstraintKey}
    (hkey : key ∈ frontier.keysFor host) : key ∉ permit.serverKeys := by
  unfold keysFor at hkey
  rw [hegress, List.mem_append, List.mem_cons, List.mem_singleton] at hkey
  rcases hkey with (rfl | hkey) | rfl
  · exact h.1
  · exact h.2 key (Option.mem_toList.mp hkey)
  · intro hserver
    have hkind := hkeyed.isServer hserver
    cases hkind

/-- A pause earned by one server holds back no host that shares neither key with it. -/
theorem Unrelated.decide_observeRetryAfter (h : frontier.Unrelated permit host)
    (hkeyed : permit.WellKeyed) {egress : Text} (hegress : frontier.egress = .egress egress)
    (until_ late : Nat) :
    (frontier.updateAll permit.serverKeys (KeyState.block until_)).decide_ host late =
      frontier.decide_ host late := by
  have hentry : ∀ key ∈ frontier.keysFor host,
      (frontier.updateAll permit.serverKeys (KeyState.block until_)).entry key =
        frontier.entry key := by
    intro key hkey
    rw [entry_updateAll hkeyed.serverKeys_nodup, if_neg (h.not_mem hkeyed hegress hkey)]
  apply decide_congr
  · simp
  · simp
  · simp
  · simp [keysFor]
  · rw [hentry _ (List.mem_append_left _ List.mem_cons_self)]
  · intro key hkey
    rw [hentry key hkey]
    exact ⟨rfl, rfl, rfl⟩

/-- The predicate reads the windows last: with the rest alike it is settled alike, or by what
binds. -/
theorem decide_by_binding {left right : Frontier} (hpolicy : left.policy = right.policy)
    (habandons : left.abandons = right.abandons)
    (hresolved : left.resolutions.get host = right.resolutions.get host)
    (hrules : left.effectiveRules (.host host) at_ = right.effectiveRules (.host host) at_) :
    left.decide_ host at_ = right.decide_ host at_ ∨
      (left.decide_ host at_ = (left.binding (left.keysFor host) at_).getD .admit_ ∧
        right.decide_ host at_ = (right.binding (right.keysFor host) at_).getD .admit_) := by
  unfold decide_
  rw [hpolicy, habandons, hresolved, hrules]
  split
  · exact Or.inl rfl
  · split
    · exact Or.inl rfl
    · exact Or.inl rfl
    · exact Or.inl rfl
    · split
      · exact Or.inl rfl
      · exact Or.inl rfl
      · exact Or.inl rfl
      · exact Or.inr ⟨rfl, rfl⟩
      · exact Or.inr ⟨rfl, rfl⟩

theorem le_of_saturated {key asked : ConstraintKey} {resumeAt : Nat}
    (h : frontier.saturated key at_ = some (.defer resumeAt .rateLimited asked)) :
    at_ ≤ resumeAt ∧ asked = key := by
  rw [saturated_eq] at h
  split at h
  · cases h
    exact ⟨by omega, rfl⟩
  · split at h
    · cases h
      exact ⟨le_refl _, rfl⟩
    · cases h

/-- Once a slot of one key is given back, what binds is what bound, or that key's wait at the
instant of the question is over. -/
theorem binding_of_freed {left right : Frontier} {freed : ConstraintKey}
    (hothers : ∀ key ∈ keys, key ≠ freed → left.saturated key at_ = right.saturated key at_)
    (hfreed : left.saturated freed at_ = right.saturated freed at_ ∨
      left.saturated freed at_ = none ∧
        right.saturated freed at_ = some (.defer at_ .rateLimited freed)) :
    left.binding keys at_ = right.binding keys at_ ∨
      (right.binding keys at_ = some (.defer at_ .rateLimited freed) ∧
        (left.binding keys at_ = none ∨
          ∃ key, left.binding keys at_ = some (.defer at_ .rateLimited key))) := by
  rcases hfreed with hsame | ⟨hgone, hheld⟩
  · left
    have hwaits : left.waits keys at_ = right.waits keys at_ := by
      apply List.filterMap_congr
      intro key hkey
      by_cases heq : key = freed
      · rw [heq, hsame]
      · exact hothers key hkey heq
    rw [binding_eq_foldl, binding_eq_foldl, hwaits]
  · -- The waits left over are those of the other keys.
    have hwaits : ∀ wait, wait ∈ left.waits keys at_ ↔
        wait ∈ right.waits keys at_ ∧ wait ≠ .defer at_ .rateLimited freed := by
      intro wait
      constructor
      · intro hwait
        obtain ⟨key, hkey, hsaturated⟩ := List.mem_filterMap.mp hwait
        have hne : key ≠ freed := by
          rintro rfl
          rw [hgone] at hsaturated
          cases hsaturated
        rw [hothers key hkey hne] at hsaturated
        refine ⟨List.mem_filterMap.mpr ⟨key, hkey, hsaturated⟩, ?_⟩
        rintro rfl
        exact hne (le_of_saturated hsaturated).2.symm
      · rintro ⟨hwait, hne⟩
        obtain ⟨key, hkey, hsaturated⟩ := List.mem_filterMap.mp hwait
        have hkeyNe : key ≠ freed := by
          rintro rfl
          rw [hheld] at hsaturated
          exact hne (Option.some.inj hsaturated).symm
        exact List.mem_filterMap.mpr ⟨key, hkey, (hothers key hkey hkeyNe).trans hsaturated⟩
    cases hbinding : right.binding keys at_ with
    | none =>
      left
      rw [binding_eq_none] at hbinding ⊢
      intro key hkey
      by_cases heq : key = freed
      · rw [heq, hgone]
      · rw [hothers key hkey heq, hbinding key hkey]
    | some verdict =>
      obtain ⟨hmem, habove⟩ := binding_eq_some.mp hbinding
      by_cases hfreedBinds : verdict = .defer at_ .rateLimited freed
      · right
        refine ⟨by rw [hfreedBinds], ?_⟩
        cases hleft : left.binding keys at_ with
        | none => exact Or.inl rfl
        | some wait =>
          right
          obtain ⟨hwait, -⟩ := binding_eq_some.mp hleft
          obtain ⟨key, hkey, hsaturated⟩ := List.mem_filterMap.mp ((hwaits wait).mp hwait).1
          obtain ⟨resumeAt, rfl⟩ := saturated_isDefer hsaturated
          have hnot := habove _ ((hwaits _).mp hwait).1
          rw [hfreedBinds] at hnot
          have hle := Verdict.le_of_not_exceeds hnot
          have hge := (le_of_saturated hsaturated).1
          exact ⟨key, by rw [le_antisymm hle hge]⟩
      · left
        apply binding_eq_some.mpr
        refine ⟨(hwaits verdict).mpr ⟨hmem, hfreedBinds⟩, ?_⟩
        intro wait hwait
        exact habove wait ((hwaits wait).mp hwait).1

theorem Unrelated.entry_completed (h : frontier.Unrelated permit host) (hkeyed : permit.WellKeyed)
    {egress : Text} (hegress : frontier.egress = .egress egress) (outcome : Outcome)
    {key : ConstraintKey} (hkey : key ∈ frontier.keysFor host) :
    (frontier.completed permit outcome).entry key =
      if key = permit.egress then (frontier.entry key).release else frontier.entry key := by
  have hserver := h.not_mem hkeyed hegress hkey
  have hmem : key ∈ permit.keys ↔ key = permit.egress := by
    unfold InFlightPermit.keys
    rw [List.mem_append, List.mem_singleton]
    exact or_iff_right hserver
  rw [Frontier.entry_completed hkeyed]
  unfold settled
  simp only [hmem, hserver, if_false]

theorem Unrelated.decide_completed (h : frontier.Unrelated permit host) (hkeyed : permit.WellKeyed)
    {egress : Text} (hegress : frontier.egress = .egress egress) (outcome : Outcome) (at_ : Nat) :
    (frontier.completed permit outcome).decide_ host at_ = frontier.decide_ host at_ ∨
      (frontier.decide_ host at_ = .defer at_ .rateLimited permit.egress ∧
        ((frontier.completed permit outcome).decide_ host at_ = .admit_ ∨
          ∃ key, (frontier.completed permit outcome).decide_ host at_ =
            .defer at_ .rateLimited key)) := by
  have hcompleted := completed_eq frontier permit outcome
  have hkeys : (frontier.completed permit outcome).keysFor host = frontier.keysFor host := by
    rw [hcompleted]
    rfl
  have hrules : (frontier.completed permit outcome).effectiveRules (.host host) at_ =
      frontier.effectiveRules (.host host) at_ := by
    rw [effectiveRules_eq, effectiveRules_eq,
      h.entry_completed hkeyed hegress outcome (List.mem_append_left _ List.mem_cons_self)]
    have hpolicy : (frontier.completed permit outcome).policy = frontier.policy := by
      rw [hcompleted]
    rw [hpolicy]
    split
    · rfl
    · rfl
  have hothers : ∀ key ∈ frontier.keysFor host, key ≠ permit.egress →
      (frontier.completed permit outcome).saturated key at_ = frontier.saturated key at_ := by
    intro key hkey hne
    rw [saturated_eq, saturated_eq, h.entry_completed hkeyed hegress outcome hkey, if_neg hne]
  rcases decide_by_binding (by rw [hcompleted]) (by rw [hcompleted]) (by rw [hcompleted]) hrules with
    hsame | ⟨hleft, hright⟩
  · exact Or.inl hsame
  · rw [hkeys] at hleft
    rw [hleft, hright]
    by_cases hshared : permit.egress ∈ frontier.keysFor host
    · have hfreed : (frontier.completed permit outcome).saturated permit.egress at_ =
            frontier.saturated permit.egress at_ ∨
          (frontier.completed permit outcome).saturated permit.egress at_ = none ∧
            frontier.saturated permit.egress at_ =
              some (.defer at_ .rateLimited permit.egress) := by
        rw [saturated_eq, saturated_eq, h.entry_completed hkeyed hegress outcome hshared,
          if_pos rfl]
        simp only [KeyState.release]
        by_cases hpaused : at_ < (frontier.entry permit.egress).blockedUntil
        · left
          simp [hpaused]
        · by_cases hfull : (frontier.entry permit.egress).window ≤
              (frontier.entry permit.egress).inFlight
          · by_cases hstill : (frontier.entry permit.egress).window ≤
                (frontier.entry permit.egress).inFlight - 1
            · left
              simp [hpaused, hfull, hstill]
            · right
              simp [hpaused, hfull, hstill]
          · have hroom : ¬ (frontier.entry permit.egress).window ≤
                (frontier.entry permit.egress).inFlight - 1 := by omega
            left
            simp [hpaused, hfull, hroom]
      rcases binding_of_freed hothers hfreed with hsame | ⟨hheld, hgone | ⟨key, hwait⟩⟩
      · rw [hsame]
        exact Or.inl rfl
      · rw [hheld, hgone]
        exact Or.inr ⟨rfl, Or.inl rfl⟩
      · rw [hheld, hwait]
        exact Or.inr ⟨rfl, Or.inr ⟨key, rfl⟩⟩
    · left
      have hwaits : (frontier.completed permit outcome).waits (frontier.keysFor host) at_ =
          frontier.waits (frontier.keysFor host) at_ := by
        apply List.filterMap_congr
        intro key hkey
        apply hothers key hkey
        rintro rfl
        exact hshared hkey
      rw [binding_eq_foldl, binding_eq_foldl, hwaits]

end Frontier

section Claims

open Frontier

variable {policy : PolitenessPolicy} {egress : Text} {issuer : Nat} {world : World}

/-- What a live permit may do to hosts it is unrelated to: its server's pauses do not reach them, a
completion leaves what they are judged by and can only end a wait for the egress, and completions
that share no key of a server commute. -/
structure Local (frontier : Frontier) (live : List InFlightPermit) (permit : InFlightPermit) :
    Prop where
  pauses : ∀ host, frontier.Unrelated permit host → ∀ at_ delay, ∃ next,
    frontier.observeRetryAfter permit at_ delay = .ok next ∧
      ∀ late, next.decide_ host late = frontier.decide_ host late
  completes : ∀ host, frontier.Unrelated permit host → ∀ outcome, ∃ next,
    frontier.complete permit outcome = .ok next ∧ next.keysFor host = frontier.keysFor host ∧
      (∀ key ∈ frontier.keysFor host, next.window key = frontier.window key ∧
        (next.entry key).blockedUntil = (frontier.entry key).blockedUntil ∧
        (next.entry key).rules = (frontier.entry key).rules) ∧
      ∀ late, next.decide_ host late = frontier.decide_ host late ∨
        (frontier.decide_ host late = .defer late .rateLimited permit.egress ∧
          (next.decide_ host late = .admit_ ∨
            ∃ key, next.decide_ host late = .defer late .rateLimited key))
  commutes : ∀ other ∈ live, other ≠ permit → (∀ key ∈ permit.serverKeys, key ∉ other.serverKeys) →
    ∀ outcome otherOutcome, ∃ first second last, frontier.complete permit outcome = .ok first ∧
      frontier.complete other otherOutcome = .ok second ∧
        first.complete other otherOutcome = .ok last ∧ second.complete permit outcome = .ok last

theorem Accounted.verify_live (h : Accounted policy egress issuer world) {permit : InFlightPermit}
    (hlive : permit ∈ world.live) : world.frontier.verify permit = .ok () := by
  obtain ⟨hissuer, -, -⟩ := h.issued permit hlive
  refine Frontier.verify_eq_ok.mpr ⟨hissuer.trans h.issuer_eq.symm, ?_⟩
  rw [h.ledger, List.mem_toFinset]
  exact List.mem_map_of_mem hlive

theorem Accounted.verify_completed (h : Accounted policy egress issuer world)
    {permit other : InFlightPermit} (hpermit : permit ∈ world.live) (hother : other ∈ world.live)
    (hne : other ≠ permit) (outcome : Outcome) :
    (world.frontier.completed permit outcome).verify other = .ok () := by
  obtain ⟨hissuer, hmem⟩ := Frontier.verify_eq_ok.mp (h.verify_live hother)
  apply Frontier.verify_eq_ok.mpr
  rw [completed_eq]
  refine ⟨hissuer, Finset.mem_erase.mpr ⟨?_, hmem⟩⟩
  intro heq
  exact hne (h.ordinal_injective hpermit hother heq)

/-- One server's answers never throttle a host that shares neither its host key nor its origin. -/
theorem answers_stay_local {trace : List (World × Op)}
    (run : Run World.Step (.new policy egress issuer) trace world) (permit : InFlightPermit)
    (hlive : permit ∈ world.live) : Local world.frontier world.live permit := by
  have h := Accounted.run run
  obtain ⟨-, hkeyed, -⟩ := h.issued permit hlive
  have hverify := h.verify_live hlive
  constructor
  case pauses =>
    intro host hunrelated at_ delay
    refine ⟨_, Frontier.observeRetryAfter_eq_ok.mpr ⟨hverify, rfl⟩, ?_⟩
    intro late
    exact hunrelated.decide_observeRetryAfter hkeyed h.egress_eq _ late
  case completes =>
    intro host hunrelated outcome
    refine ⟨_, Frontier.complete_eq_ok.mpr ⟨hverify, rfl⟩, ?_, ?_, ?_⟩
    · rw [completed_eq]
      rfl
    · intro key hkey
      rw [window_eq, window_eq, hunrelated.entry_completed hkeyed h.egress_eq outcome hkey]
      split
      · exact ⟨rfl, rfl, rfl⟩
      · exact ⟨rfl, rfl, rfl⟩
    · intro late
      exact hunrelated.decide_completed hkeyed h.egress_eq outcome late
  case commutes =>
    intro other hother hne hapart outcome otherOutcome
    obtain ⟨-, hotherKeyed, -⟩ := h.issued other hother
    refine ⟨_, _, _, Frontier.complete_eq_ok.mpr ⟨hverify, rfl⟩,
      Frontier.complete_eq_ok.mpr ⟨h.verify_live hother, rfl⟩,
      Frontier.complete_eq_ok.mpr ⟨h.verify_completed hlive hother hne outcome, rfl⟩,
      Frontier.complete_eq_ok.mpr ⟨h.verify_completed hother hlive (Ne.symm hne) otherOutcome, ?_⟩⟩
    exact completed_comm hkeyed hotherKeyed outcome otherOutcome hapart

def movedPermit : InFlightPermit :=
  ⟨0, 1, "a".toList, some (.origin "one".toList), .egress "eth0".toList⟩

theorem answers_stay_local_moved : Local movedHost.frontier movedHost.live movedPermit := by
  have hquiet (world : World) (op : Op)
      (h : ∀ permit at_ delay outcome, op ≠ .observeRetryAfter permit at_ delay ∧
        op ≠ .complete permit outcome) : world.Step op (world.act op) :=
    ⟨fun permit at_ delay heq => absurd heq (h permit at_ delay .success).1,
      fun permit outcome heq => absurd heq (h permit 0 0 outcome).2, rfl⟩
  refine answers_stay_local (.snoc (.snoc (.snoc (.snoc .refl (hquiet _ _ ?_)) (hquiet _ _ ?_))
    (hquiet _ _ ?_)) (hquiet _ _ ?_)) movedPermit ?_
  case refine_5 => decide +kernel
  all_goals
    intro permit at_ delay outcome
    constructor
    · intro hop
      cases hop
    · intro hop
      cases hop

end Claims

end LogicalWorks.Politeness
