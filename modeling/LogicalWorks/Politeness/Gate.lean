import LogicalWorks.Politeness.Policy
import LogicalWorks.Lib.Index
import LogicalWorks.Lib.Table
import Mathlib.Data.Finset.Card
import Mathlib.Data.List.Sort
import Mathlib.Data.Char
import Mathlib.Data.List.Lex
import Mathlib.Order.Lex

/-! The frontier: the adaptive state of each constraint, the one admission predicate, and what
reads it or acts on it. -/
namespace LogicalWorks.Politeness
open Session (Text)
open Ecs (saturatingAdd)

structure InFlightPermit where
  issuer : Nat
  ordinal : Nat
  host : Text
  origin : Option ConstraintKey
  egress : ConstraintKey
  deriving DecidableEq, Repr

namespace InFlightPermit

def serverKeys (permit : InFlightPermit) : List ConstraintKey :=
  .host permit.host :: permit.origin.toList

def keys (permit : InFlightPermit) : List ConstraintKey := permit.serverKeys ++ [permit.egress]

def holds (permit : InFlightPermit) (key : ConstraintKey) : Bool := permit.keys.contains key

end InFlightPermit

inductive Verdict where
  | admit_
  | defer (resumeAt : Nat) (kind : DeferralKind) (constraint : ConstraintKey)
  | reject (kind : RejectKind)
  deriving DecidableEq, Repr

inductive Admission where
  | admit_ (permit : InFlightPermit)
  | defer (resumeAt : Nat) (kind : DeferralKind) (constraint : ConstraintKey)
  | reject (kind : RejectKind)
  deriving DecidableEq, Repr

namespace Verdict

def refusal : Verdict → Option Admission
  | admit_ => none
  | defer resumeAt kind constraint => some (.defer resumeAt kind constraint)
  | reject kind => some (.reject kind)

def prerequisite : Verdict → Option DeferralKind
  | defer _ kind _ => if kind.needsPrerequisite then some kind else none
  | admit_ | reject _ => none

def exceeds (offered held : Verdict) : Bool :=
  match offered, held with
  | defer offeredAt offeredKind offeredKey, defer heldAt heldKind heldKey =>
    ((compare offeredAt heldAt).then ((compare offeredKind.rank heldKind.rank).then
      ((compare offeredKey.rank heldKey.rank).then (compare offeredKey.text heldKey.text)))).isGT
  | defer _ _ _, _ => true
  | _, _ => false

def IsWait (verdict : Verdict) : Prop :=
  ∃ resumeAt key, verdict = .defer resumeAt .rateLimited key

end Verdict

def later (current : Option Verdict) (candidate : Verdict) : Verdict :=
  match current with
  | none => candidate
  | some held => if candidate.exceeds held then candidate else held

structure KeyState where
  window : Nat
  inFlight : Nat
  successes : Nat
  blockedUntil : Nat
  rules : RulesState
  deriving DecidableEq, Repr

namespace KeyState

def take (entry : KeyState) : KeyState := { entry with inFlight := min (entry.inFlight + 1) u32Max }

def release (entry : KeyState) : KeyState := { entry with inFlight := entry.inFlight - 1 }

def block (until_ : Nat) (entry : KeyState) : KeyState :=
  if entry.blockedUntil < until_ then { entry with blockedUntil := until_ } else entry

def setRules (rules : RulesState) (entry : KeyState) : KeyState := { entry with rules }

def promote (at_ grace : Nat) (entry : KeyState) : KeyState :=
  { entry with rules := entry.rules.effective at_ grace }

def settle (policy : PolitenessPolicy) (outcome : Outcome) (entry : KeyState) : KeyState :=
  match outcome with
  | .success =>
    let successes := min (entry.successes + 1) u32Max
    if policy.increaseAfter ≤ successes then
      { entry with successes := 0, window := policy.increase entry.window }
    else { entry with successes }
  | .cacheHit => entry
  | .failure => { entry with successes := 0, window := policy.decrease entry.window }

end KeyState

structure Frontier where
  policy : PolitenessPolicy
  egress : ConstraintKey
  resolutions : Table Text Resolved
  constraints : Index Text ConstraintKey
  state : Index ConstraintKey KeyState
  abandons : List Text
  issuer : Nat
  reservations : Finset Nat
  nextOrdinal : Nat

namespace Frontier

def fresh (frontier : Frontier) : KeyState := ⟨frontier.policy.minWindow, 0, 0, 0, .notFetched⟩

def entry (frontier : Frontier) (key : ConstraintKey) : KeyState :=
  (frontier.state.get key).getD frontier.fresh

def update (change : KeyState → KeyState) (frontier : Frontier) (key : ConstraintKey) : Frontier :=
  { frontier with state := frontier.state.insert key (change (frontier.entry key)) }

def updateAll (frontier : Frontier) (keys : List ConstraintKey) (change : KeyState → KeyState) :
    Frontier :=
  keys.foldl (update change) frontier

def new (policy : PolitenessPolicy) (egress : Text) (issuer : Nat) : Frontier :=
  let frontier : Frontier := ⟨policy, .egress egress, .empty, .empty, .empty, [], issuer, ∅, 1⟩
  frontier.update (fun entry => { entry with window := policy.egressWindow }) (.egress egress)

def inFlight (frontier : Frontier) (key : ConstraintKey) : Nat :=
  match frontier.state.get key with
  | some entry => entry.inFlight
  | none => 0

def outstanding (frontier : Frontier) : Nat := frontier.reservations.card

def window (frontier : Frontier) (key : ConstraintKey) : Nat :=
  match frontier.state.get key with
  | some entry => entry.window
  | none => frontier.policy.minWindow

def observeResolution (frontier : Frontier) (host : Text) (resolved : Resolved) : Frontier :=
  let constraints := match resolved with
    | .origin origin => frontier.constraints.insert host (.origin origin)
    | .failed | .doesNotExist => frontier.constraints.erase host
  { frontier with constraints, resolutions := frontier.resolutions.insert host resolved }

def observeRules (frontier : Frontier) (key : ConstraintKey) (rules : RulesState) : Frontier :=
  frontier.update (KeyState.setRules rules) key

def verify (frontier : Frontier) (permit : InFlightPermit) : Except CompletionError Unit := do
  require (permit.issuer = frontier.issuer) .foreignPermit
  require (permit.ordinal ∈ frontier.reservations) .unknownPermit

/-- Hold the permit's host and origin back as long as the server asked. -/
def observeRetryAfter (frontier : Frontier) (permit : InFlightPermit) (at_ delay : Nat) :
    Except CompletionError Frontier := do
  frontier.verify permit
  return frontier.updateAll permit.serverKeys (KeyState.block (saturatingAdd at_ delay))

/-- Every constraint a request to a host is subject to, as the topology stands now. -/
def keysFor (frontier : Frontier) (host : Text) : List ConstraintKey :=
  .host host :: (frontier.constraints.get host).toList ++ [frontier.egress]

def effectiveRules (frontier : Frontier) (key : ConstraintKey) (at_ : Nat) : RulesState :=
  match frontier.state.get key with
  | some entry => entry.rules.effective at_ frontier.policy.unreachableGrace
  | none => .notFetched

def promoteRules (frontier : Frontier) (key : ConstraintKey) (at_ : Nat) : Frontier :=
  frontier.update (KeyState.promote at_ frontier.policy.unreachableGrace) key

def saturated (frontier : Frontier) (key : ConstraintKey) (at_ : Nat) : Option Verdict :=
  match frontier.state.get key with
  | none => none
  | some entry =>
    if at_ < entry.blockedUntil then some (.defer entry.blockedUntil .rateLimited key)
    else if entry.window ≤ entry.inFlight then some (.defer at_ .rateLimited key)
    else none

def weigh (frontier : Frontier) (at_ : Nat) (held : Option Verdict) (key : ConstraintKey) :
    Option Verdict :=
  match frontier.saturated key at_ with
  | some wait => some (later held wait)
  | none => held

def binding (frontier : Frontier) (keys : List ConstraintKey) (at_ : Nat) : Option Verdict :=
  keys.foldl (frontier.weigh at_) none

def decide_ (frontier : Frontier) (host : Text) (at_ : Nat) : Verdict :=
  if frontier.abandons.contains host then .reject .doesNotExist
  else
    match frontier.resolutions.get host with
    | none => .defer at_ .originUnmapped (.host host)
    | some .failed =>
      .defer (saturatingAdd at_ frontier.policy.retryAfterFailure) .resolutionFailed (.host host)
    | some .doesNotExist => .reject .doesNotExist
    | some (.origin _) =>
      match frontier.effectiveRules (.host host) at_ with
      | .disallowed rule => .reject (.disallowed rule)
      | .notFetched => .defer at_ .rulesNotFetched (.host host)
      | .unreachable _ =>
        .defer (saturatingAdd at_ frontier.policy.retryAfterFailure) .originPolicyUnreachable
          (.host host)
      | .allowed | .noRules => (frontier.binding (frontier.keysFor host) at_).getD .admit_

def permitFor (frontier : Frontier) (host : Text) : InFlightPermit :=
  ⟨frontier.issuer, frontier.nextOrdinal, host, frontier.constraints.get host, frontier.egress⟩

def reserved (frontier : Frontier) (host : Text) (at_ : Nat) : Frontier :=
  { (frontier.promoteRules (.host host) at_).updateAll (frontier.keysFor host) KeyState.take with
    nextOrdinal := frontier.nextOrdinal + 1
    reservations := insert frontier.nextOrdinal frontier.reservations }

def reserve (frontier : Frontier) (host : Text) (at_ : Nat) : Admission × Frontier :=
  if frontier.nextOrdinal + 1 ≤ u64Max then
    (.admit_ (frontier.permitFor host), frontier.reserved host at_)
  else (.reject .exhausted, frontier)

def admit_ (frontier : Frontier) (host : Text) (at_ : Nat) : Admission × Frontier :=
  match (frontier.decide_ host at_).refusal with
  | some refused => (refused, frontier)
  | none => frontier.reserve host at_

def completed (frontier : Frontier) (permit : InFlightPermit) (outcome : Outcome) : Frontier :=
  (({ frontier with reservations := frontier.reservations.erase permit.ordinal }).updateAll
    permit.keys KeyState.release).updateAll permit.serverKeys
      (KeyState.settle frontier.policy outcome)

def complete (frontier : Frontier) (permit : InFlightPermit) (outcome : Outcome) :
    Except CompletionError Frontier := do
  frontier.verify permit
  return frontier.completed permit outcome

def abandon (frontier : Frontier) (host : Text) : Frontier :=
  { frontier with abandons := host :: frontier.abandons }

def hosts (frontier : Frontier) : List Text :=
  (frontier.resolutions.rows.map Prod.fst).insertionSort (· ≤ ·)

def nextAdmissible (frontier : Frontier) (at_ : Nat) : Option Text :=
  frontier.hosts.find? fun host => frontier.decide_ host at_ = .admit_

def nextPrerequisite (frontier : Frontier) (at_ : Nat) : Option (Text × DeferralKind) :=
  frontier.hosts.findSome? fun host =>
    (frontier.decide_ host at_).prerequisite.map fun kind => (host, kind)

variable {frontier : Frontier} {keys : List ConstraintKey} {change : KeyState → KeyState}

theorem updateAll_state (frontier : Frontier) (keys : List ConstraintKey)
    (change : KeyState → KeyState) : frontier.updateAll keys change =
      { frontier with state := (frontier.updateAll keys change).state } := by
  induction keys generalizing frontier with
  | nil => rfl
  | cons key rest ih => exact ih (update change frontier key)

@[simp] theorem updateAll_policy : (frontier.updateAll keys change).policy = frontier.policy := by
  rw [updateAll_state]

@[simp] theorem updateAll_egress : (frontier.updateAll keys change).egress = frontier.egress := by
  rw [updateAll_state]

@[simp] theorem updateAll_resolutions :
    (frontier.updateAll keys change).resolutions = frontier.resolutions := by
  rw [updateAll_state]

@[simp] theorem updateAll_constraints :
    (frontier.updateAll keys change).constraints = frontier.constraints := by
  rw [updateAll_state]

@[simp] theorem updateAll_abandons :
    (frontier.updateAll keys change).abandons = frontier.abandons := by
  rw [updateAll_state]

@[simp] theorem updateAll_issuer : (frontier.updateAll keys change).issuer = frontier.issuer := by
  rw [updateAll_state]

@[simp] theorem updateAll_reservations :
    (frontier.updateAll keys change).reservations = frontier.reservations := by
  rw [updateAll_state]

@[simp] theorem updateAll_nextOrdinal :
    (frontier.updateAll keys change).nextOrdinal = frontier.nextOrdinal := by
  rw [updateAll_state]

theorem entry_update (frontier : Frontier) (key asked : ConstraintKey)
    (change : KeyState → KeyState) : (update change frontier key).entry asked =
      if asked = key then change (frontier.entry key) else frontier.entry asked := by
  unfold update entry
  simp only [Index.get_insert]
  by_cases h : asked = key
  · simp [h]
  · simp [h, fresh]

theorem entry_updateAll (hnodup : keys.Nodup) (asked : ConstraintKey) :
    (frontier.updateAll keys change).entry asked =
      if asked ∈ keys then change (frontier.entry asked) else frontier.entry asked := by
  induction keys generalizing frontier with
  | nil => simp [updateAll]
  | cons key rest ih =>
    have hstep : frontier.updateAll (key :: rest) change =
        (update change frontier key).updateAll rest change := rfl
    obtain ⟨hnotin, hrest⟩ := List.nodup_cons.mp hnodup
    rw [hstep, ih hrest, entry_update]
    by_cases hkey : asked = key
    · subst hkey
      simp [hnotin]
    · simp [hkey]

theorem inFlight_eq (frontier : Frontier) (key : ConstraintKey) :
    frontier.inFlight key = (frontier.entry key).inFlight := by
  unfold inFlight entry
  cases frontier.state.get key <;> rfl

theorem window_eq (frontier : Frontier) (key : ConstraintKey) :
    frontier.window key = (frontier.entry key).window := by
  unfold window entry
  cases frontier.state.get key <;> rfl

theorem effectiveRules_eq (frontier : Frontier) (key : ConstraintKey) (at_ : Nat) :
    frontier.effectiveRules key at_ =
      (frontier.entry key).rules.effective at_ frontier.policy.unreachableGrace := by
  unfold effectiveRules entry
  cases frontier.state.get key <;> rfl

theorem saturated_eq (frontier : Frontier) (key : ConstraintKey) (at_ : Nat) :
    frontier.saturated key at_ =
      if at_ < (frontier.entry key).blockedUntil then
        some (.defer (frontier.entry key).blockedUntil .rateLimited key)
      else if (frontier.entry key).window ≤ (frontier.entry key).inFlight then
        some (.defer at_ .rateLimited key)
      else none := by
  have hpos := frontier.policy.min_pos
  unfold saturated entry
  cases frontier.state.get key with
  | some entry => rfl
  | none => simp [fresh, Nat.pos_iff_ne_zero.mp hpos]

theorem saturated_eq_none {key : ConstraintKey} {at_ : Nat} :
    frontier.saturated key at_ = none ↔ (frontier.entry key).blockedUntil ≤ at_ ∧
      (frontier.entry key).inFlight < (frontier.entry key).window := by
  rw [saturated_eq]
  split
  · simp only [reduceCtorEq, false_iff, not_and, Nat.not_lt]
    omega
  · split
    · simp only [reduceCtorEq, false_iff, not_and, Nat.not_lt]
      omega
    · simp only [true_iff]
      omega

theorem saturated_isDefer {key : ConstraintKey} {at_ : Nat} {wait : Verdict}
    (h : frontier.saturated key at_ = some wait) :
    ∃ resumeAt, wait = .defer resumeAt .rateLimited key := by
  rw [saturated_eq] at h
  split at h
  · exact ⟨_, (Option.some.inj h).symm⟩
  · split at h
    · exact ⟨_, (Option.some.inj h).symm⟩
    · cases h

theorem later_isWait {held : Option Verdict} {wait : Verdict}
    (hheld : ∀ verdict, held = some verdict → verdict.IsWait) (hwait : wait.IsWait) :
    (later held wait).IsWait := by
  cases held with
  | none => exact hwait
  | some verdict =>
    simp only [later]
    split
    · exact hwait
    · exact hheld verdict rfl

theorem foldl_weigh {held : Option Verdict} {at_ : Nat} (keys : List ConstraintKey)
    (hheld : ∀ verdict, held = some verdict → verdict.IsWait) :
    (∀ verdict, keys.foldl (frontier.weigh at_) held = some verdict → verdict.IsWait) ∧
      (keys.foldl (frontier.weigh at_) held = none ↔
        held = none ∧ ∀ key ∈ keys, frontier.saturated key at_ = none) := by
  induction keys generalizing held with
  | nil => simpa using hheld
  | cons key rest ih =>
    rw [List.foldl_cons]
    cases hkey : frontier.saturated key at_ with
    | none =>
      have hsame : frontier.weigh at_ held key = held := by simp [weigh, hkey]
      rw [hsame]
      simpa [hkey] using ih hheld
    | some wait =>
      have hnext : frontier.weigh at_ held key = some (later held wait) := by simp [weigh, hkey]
      obtain ⟨resumeAt, hwait⟩ := saturated_isDefer hkey
      have hlater := later_isWait hheld ⟨resumeAt, key, hwait⟩
      rw [hnext]
      simpa [hkey] using @ih (some (later held wait)) (by simpa using hlater)

theorem binding_isWait {at_ : Nat} {verdict : Verdict}
    (h : frontier.binding keys at_ = some verdict) : verdict.IsWait :=
  (foldl_weigh keys (by simp)).1 verdict h

theorem binding_eq_none {at_ : Nat} : frontier.binding keys at_ = none ↔
    ∀ key ∈ keys, frontier.saturated key at_ = none := by
  unfold binding
  rw [(foldl_weigh keys (by simp)).2]
  simp

/-- What it takes to be admitted: the host is known and not given up, its rules let it through, and
each of its constraints has room. -/
theorem decide_eq_admit {host : Text} {at_ : Nat} :
    frontier.decide_ host at_ = .admit_ ↔ host ∉ frontier.abandons ∧
      (∃ origin, frontier.resolutions.get host = some (.origin origin)) ∧
      (frontier.effectiveRules (.host host) at_).permits = true ∧
      ∀ key ∈ frontier.keysFor host, frontier.saturated key at_ = none := by
  rw [← binding_eq_none]
  unfold decide_
  by_cases habandoned : host ∈ frontier.abandons
  · simp [habandoned]
  · simp only [List.contains_eq_mem, habandoned, decide_false, Bool.false_eq_true, if_false,
      not_false_eq_true, true_and]
    cases hresolved : frontier.resolutions.get host with
    | none => simp
    | some resolved =>
      cases resolved with
      | failed => simp
      | doesNotExist => simp
      | origin origin =>
        cases hrules : frontier.effectiveRules (.host host) at_ with
        | disallowed rule => simp [RulesState.permits]
        | notFetched => simp [RulesState.permits]
        | unreachable since => simp [RulesState.permits]
        | allowed =>
          cases hbinding : frontier.binding (frontier.keysFor host) at_ with
          | none => simp [RulesState.permits]
          | some verdict =>
            obtain ⟨resumeAt, key, rfl⟩ := binding_isWait hbinding
            simp
        | noRules =>
          cases hbinding : frontier.binding (frontier.keysFor host) at_ with
          | none => simp [RulesState.permits]
          | some verdict =>
            obtain ⟨resumeAt, key, rfl⟩ := binding_isWait hbinding
            simp

theorem verify_eq_ok {permit : InFlightPermit} : frontier.verify permit = .ok () ↔
    permit.issuer = frontier.issuer ∧ permit.ordinal ∈ frontier.reservations := by
  simp [verify]

theorem observeRetryAfter_eq_ok {permit : InFlightPermit} {at_ delay : Nat} {next : Frontier} :
    frontier.observeRetryAfter permit at_ delay = .ok next ↔ frontier.verify permit = .ok () ∧
      next = frontier.updateAll permit.serverKeys (KeyState.block (saturatingAdd at_ delay)) := by
  unfold observeRetryAfter
  rw [bind_eq_ok]
  constructor
  · rintro ⟨⟨⟩, hverify, hnext⟩
    exact ⟨hverify, (Except.ok.inj hnext).symm⟩
  · rintro ⟨hverify, rfl⟩
    exact ⟨(), hverify, rfl⟩

theorem complete_eq_ok {permit : InFlightPermit} {outcome : Outcome} {next : Frontier} :
    frontier.complete permit outcome = .ok next ↔ frontier.verify permit = .ok () ∧
      next = frontier.completed permit outcome := by
  unfold complete
  rw [bind_eq_ok]
  constructor
  · rintro ⟨⟨⟩, hverify, hnext⟩
    exact ⟨hverify, (Except.ok.inj hnext).symm⟩
  · rintro ⟨hverify, rfl⟩
    exact ⟨(), hverify, rfl⟩

theorem admit_eq {host : Text} {at_ : Nat} {permit : InFlightPermit} {next : Frontier} :
    frontier.admit_ host at_ = (.admit_ permit, next) ↔
      frontier.decide_ host at_ = .admit_ ∧ frontier.nextOrdinal + 1 ≤ u64Max ∧
        permit = frontier.permitFor host ∧ next = frontier.reserved host at_ := by
  unfold admit_ reserve
  cases hverdict : frontier.decide_ host at_ with
  | admit_ =>
    by_cases hordinal : frontier.nextOrdinal + 1 ≤ u64Max
    · simp [Verdict.refusal, hordinal, eq_comm]
    · simp [Verdict.refusal, hordinal]
  | defer resumeAt kind key => simp [Verdict.refusal]
  | reject kind => simp [Verdict.refusal]

theorem admit_snd_of_ne {host : Text} {at_ : Nat}
    (h : ∀ permit, (frontier.admit_ host at_).1 ≠ .admit_ permit) :
    (frontier.admit_ host at_).2 = frontier := by
  unfold admit_ reserve at *
  cases hverdict : frontier.decide_ host at_ with
  | admit_ =>
    by_cases hordinal : frontier.nextOrdinal + 1 ≤ u64Max
    · simp [hverdict, Verdict.refusal, hordinal] at h
    · simp [Verdict.refusal, hordinal]
  | defer resumeAt kind key => rfl
  | reject kind => rfl

end Frontier

end LogicalWorks.Politeness
