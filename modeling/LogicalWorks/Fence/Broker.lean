import LogicalWorks.Journal.Chain
import Mathlib.Algebra.Order.Ring.Nat

/-! The environment broker: which environments it owns, the generation each is at, and the
warrants it mints.  Fencing is a comparison of generations, made again at the handoff. -/
namespace LogicalWorks.Fence
open Journal (EffectKey EffectEvent EnvironmentId EnvironmentEpoch JournalError)

structure Environment where
  epoch : EnvironmentEpoch
  isOpen : Bool
  deriving DecidableEq, Repr

inductive BrokerError where
  | alreadyRegistered (id : EnvironmentId)
  | unknownEnvironment (id : EnvironmentId)
  | closed (id : EnvironmentId)
  | superseded (environment : EnvironmentId) (presented current : EnvironmentEpoch)
  | neverIssued (environment : EnvironmentId) (presented current : EnvironmentEpoch)
  | foreignEnvironment (asked named : EnvironmentId)
  | nothingToAdopt (id : EnvironmentId)
  | journal (cause : JournalError)
  | exhausted (id : EnvironmentId)
  deriving DecidableEq, Repr

structure Authority where
  environment : EnvironmentId
  epoch : EnvironmentEpoch
  deriving DecidableEq, Repr

structure Broker where
  environments : Index EnvironmentId Environment

def checkedNext (epoch : EnvironmentEpoch) : Option EnvironmentEpoch :=
  if epoch + 1 < 2 ^ 64 then some (epoch + 1) else none

def highestEpoch (id : EnvironmentId) :
    Option EnvironmentEpoch → List EffectEvent → Except BrokerError (Option EnvironmentEpoch)
  | highest, [] => .ok highest
  | highest, event :: rest =>
    if event.key.environment ≠ id then
      .error (.foreignEnvironment id event.key.environment)
    else
      match highest with
      | none => highestEpoch id (some event.key.epoch) rest
      | some current =>
        if current < event.key.epoch then highestEpoch id (some event.key.epoch) rest
        else highestEpoch id (some current) rest

namespace Broker

def new : Broker := ⟨.empty⟩

def set (broker : Broker) (id : EnvironmentId) (environment : Environment) : Broker :=
  ⟨broker.environments.insert id environment⟩

def register (broker : Broker) (id : EnvironmentId) :
    Except BrokerError EnvironmentEpoch × Broker :=
  match broker.environments.get id with
  | some _ => (.error (.alreadyRegistered id), broker)
  | none => (.ok 1, broker.set id ⟨1, true⟩)

def replace (broker : Broker) (id : EnvironmentId) :
    Except BrokerError EnvironmentEpoch × Broker :=
  match broker.environments.get id with
  | none => (.error (.unknownEnvironment id), broker)
  | some environment =>
    if environment.isOpen then
      match checkedNext environment.epoch with
      | none => (.error (.exhausted id), broker)
      | some next => (.ok next, broker.set id { environment with epoch := next })
    else (.error (.closed id), broker)

def adopt (broker : Broker) (id : EnvironmentId)
    (committed : Except JournalError (List EffectEvent)) :
    Except BrokerError EnvironmentEpoch × Broker :=
  match broker.environments.get id with
  | some _ => (.error (.alreadyRegistered id), broker)
  | none =>
    match committed with
    | .error cause => (.error (.journal cause), broker)
    | .ok events =>
      match highestEpoch id none events with
      | .error cause => (.error cause, broker)
      | .ok none => (.error (.nothingToAdopt id), broker)
      | .ok (some highest) =>
        match checkedNext highest with
        | none => (.error (.exhausted id), broker)
        | some next => (.ok next, broker.set id ⟨next, true⟩)

def close (broker : Broker) (id : EnvironmentId) : Except BrokerError Unit × Broker :=
  match broker.environments.get id with
  | none => (.error (.unknownEnvironment id), broker)
  | some environment => (.ok (), broker.set id { environment with isOpen := false })

def epoch (broker : Broker) (id : EnvironmentId) : Option EnvironmentEpoch :=
  (broker.environments.get id).map Environment.epoch

def isOpen (broker : Broker) (id : EnvironmentId) : Bool :=
  match broker.environments.get id with
  | some environment => environment.isOpen
  | none => false

def checkGeneration (broker : Broker) (id : EnvironmentId) (presented : EnvironmentEpoch) :
    Except BrokerError EnvironmentEpoch :=
  match broker.environments.get id with
  | none => .error (.unknownEnvironment id)
  | some environment =>
    if environment.isOpen then
      let current := environment.epoch
      if current < presented then .error (.neverIssued id presented current)
      else if presented ≠ current then .error (.superseded id presented current)
      else .ok current
    else .error (.closed id)

def authorize (broker : Broker) (key : EffectKey) : Except BrokerError Authority := do
  let current ← broker.checkGeneration key.environment key.epoch
  return ⟨key.environment, current⟩

def revalidate (broker : Broker) (authority : Authority) : Except BrokerError Unit := do
  let _ ← broker.checkGeneration authority.environment authority.epoch
  return ()

def Holds (broker : Broker) (id : EnvironmentId) (epoch : EnvironmentEpoch) : Prop :=
  broker.environments.get id = some ⟨epoch, true⟩

variable {broker after : Broker} {id asked : EnvironmentId} {epoch : EnvironmentEpoch}
variable {cause : BrokerError}

@[simp] theorem get_set (broker : Broker) (id asked : EnvironmentId) (environment : Environment) :
    (broker.set id environment).environments.get asked =
      if asked = id then some environment else broker.environments.get asked := by
  unfold set
  exact Index.get_insert _ _ _ _

theorem checkGeneration_ok {current : EnvironmentEpoch} :
    broker.checkGeneration id epoch = .ok current ↔ broker.Holds id epoch ∧ current = epoch := by
  unfold checkGeneration Holds
  cases hget : broker.environments.get id with
  | none => simp
  | some environment =>
    obtain ⟨held, isOpen⟩ := environment
    cases isOpen with
    | false => simp
    | true =>
      simp only [if_true, Option.some.injEq, Environment.mk.injEq, and_true]
      by_cases hnewer : held < epoch
      · rw [if_pos hnewer]
        constructor
        · intro h
          cases h
        · rintro ⟨rfl, -⟩
          exact absurd hnewer (Nat.lt_irrefl _)
      · by_cases hsame : epoch = held
        · rw [if_neg hnewer, if_neg (not_not.mpr hsame), hsame, Except.ok.injEq]
          simp [eq_comm]
        · rw [if_neg hnewer, if_pos hsame]
          constructor
          · intro h
            cases h
          · rintro ⟨rfl, -⟩
            exact absurd rfl hsame

theorem authorize_ok {key : EffectKey} {authority : Authority} :
    broker.authorize key = .ok authority ↔
      broker.Holds key.environment key.epoch ∧ authority = ⟨key.environment, key.epoch⟩ := by
  unfold authorize
  cases hcheck : broker.checkGeneration key.environment key.epoch with
  | error cause =>
    constructor
    · intro h
      cases h
    · rintro ⟨hholds, -⟩
      rw [checkGeneration_ok.mpr ⟨hholds, rfl⟩] at hcheck
      cases hcheck
  | ok current =>
    obtain ⟨hholds, rfl⟩ := checkGeneration_ok.mp hcheck
    change Except.ok _ = Except.ok authority ↔ _
    rw [Except.ok.injEq, eq_comm]
    exact (and_iff_right hholds).symm

theorem revalidate_ok {authority : Authority} :
    broker.revalidate authority = .ok () ↔
      broker.Holds authority.environment authority.epoch := by
  unfold revalidate
  cases hcheck : broker.checkGeneration authority.environment authority.epoch with
  | error cause =>
    constructor
    · intro h
      cases h
    · intro hholds
      rw [checkGeneration_ok.mpr ⟨hholds, rfl⟩] at hcheck
      cases hcheck
  | ok current => exact iff_of_true rfl (checkGeneration_ok.mp hcheck).1

theorem register_cases (broker : Broker) (id : EnvironmentId) :
    ((∃ environment, broker.environments.get id = some environment) ∧
      broker.register id = (.error (.alreadyRegistered id), broker)) ∨
    (broker.environments.get id = none ∧
      broker.register id = (.ok 1, broker.set id ⟨1, true⟩)) := by
  unfold register
  cases hget : broker.environments.get id with
  | none => exact Or.inr ⟨rfl, rfl⟩
  | some environment => exact Or.inl ⟨⟨environment, rfl⟩, rfl⟩

theorem replace_cases (broker : Broker) (id : EnvironmentId) :
    (∃ cause, broker.replace id = (.error cause, broker)) ∨
    (∃ held, broker.Holds id held ∧ held + 1 < 2 ^ 64 ∧
      broker.replace id = (.ok (held + 1), broker.set id ⟨held + 1, true⟩)) := by
  unfold replace Holds
  cases hget : broker.environments.get id with
  | none => exact Or.inl ⟨_, rfl⟩
  | some environment =>
    obtain ⟨held, isOpen⟩ := environment
    cases isOpen with
    | false => exact Or.inl ⟨_, rfl⟩
    | true =>
      by_cases hnext : held + 1 < 2 ^ 64
      · refine Or.inr ⟨held, rfl, hnext, ?_⟩
        simp only [checkedNext, if_pos hnext, if_true]
      · left
        simp only [checkedNext, if_neg hnext, if_true]
        exact ⟨_, rfl⟩

theorem close_cases (broker : Broker) (id : EnvironmentId) :
    (broker.environments.get id = none ∧
      broker.close id = (.error (.unknownEnvironment id), broker)) ∨
    (∃ environment, broker.environments.get id = some environment ∧
      broker.close id = (.ok (), broker.set id ⟨environment.epoch, false⟩)) := by
  unfold close
  cases hget : broker.environments.get id with
  | none => exact Or.inl ⟨rfl, rfl⟩
  | some environment => exact Or.inr ⟨environment, rfl, rfl⟩

section Adopting

variable {events : List EffectEvent}

theorem highestEpoch_ok {highest result : Option EnvironmentEpoch}
    (h : highestEpoch id highest events = .ok result) :
    (∀ event ∈ events, event.key.environment = id) ∧
      (∀ event ∈ events, ∃ last, result = some last ∧ event.key.epoch ≤ last) ∧
      (∀ current, highest = some current → ∃ last, result = some last ∧ current ≤ last) ∧
      ∀ last, result = some last →
        highest = some last ∨ ∃ event ∈ events, event.key.epoch = last := by
  induction events generalizing highest with
  | nil =>
    cases h
    refine ⟨?_, ?_, ?_, ?_⟩
    · intro event hevent
      cases hevent
    · intro event hevent
      cases hevent
    · intro current hcurrent
      exact ⟨current, hcurrent, le_refl current⟩
    · intro last hlast
      exact Or.inl hlast
  | cons event rest ih =>
    simp only [highestEpoch] at h
    split at h
    · cases h
    · rename_i hnamed
      have hid : event.key.environment = id := not_not.mp hnamed
      -- Whichever the loop keeps is at least the event's epoch and what it had before.
      obtain ⟨kept, hkept, habove, hover, hfrom⟩ : ∃ kept,
          highestEpoch id (some kept) rest = .ok result ∧ event.key.epoch ≤ kept ∧
            (∀ current, highest = some current → current ≤ kept) ∧
            (highest = some kept ∨ event.key.epoch = kept) := by
        cases highest with
        | none =>
          refine ⟨event.key.epoch, h, le_refl _, ?_, Or.inr rfl⟩
          intro current hcurrent
          cases hcurrent
        | some current =>
          dsimp only at h
          split at h
          · rename_i hless
            refine ⟨event.key.epoch, h, le_refl _, ?_, Or.inr rfl⟩
            intro other hother
            cases hother
            exact Nat.le_of_lt hless
          · rename_i hless
            refine ⟨current, h, Nat.not_lt.mp hless, ?_, Or.inl rfl⟩
            intro other hother
            cases hother
            exact le_refl current
      obtain ⟨hall, hbelow, hstart, hreached⟩ := ih hkept
      obtain ⟨last, rfl, hlast⟩ := hstart kept rfl
      refine ⟨?_, ?_, ?_, ?_⟩
      · intro other hother
        rcases List.mem_cons.mp hother with rfl | hother
        · exact hid
        · exact hall other hother
      · intro other hother
        rcases List.mem_cons.mp hother with rfl | hother
        · exact ⟨last, rfl, le_trans habove hlast⟩
        · exact hbelow other hother
      · intro current hcurrent
        exact ⟨last, rfl, le_trans (hover current hcurrent) hlast⟩
      · intro other hother
        rcases hreached other hother with hsame | ⟨later, hlater, hepoch⟩
        · cases hsame
          rcases hfrom with hbefore | hevent
          · exact Or.inl hbefore
          · exact Or.inr ⟨event, List.mem_cons_self, hevent⟩
        · exact Or.inr ⟨later, List.mem_cons_of_mem _ hlater, hepoch⟩

theorem highestEpoch_error {highest : Option EnvironmentEpoch}
    (h : highestEpoch id highest events = .error cause) :
    ∃ event ∈ events, event.key.environment ≠ id ∧
      cause = .foreignEnvironment id event.key.environment := by
  induction events generalizing highest with
  | nil => cases h
  | cons event rest ih =>
    simp only [highestEpoch] at h
    split at h
    · rename_i hnamed
      cases h
      exact ⟨event, List.mem_cons_self, hnamed, rfl⟩
    · have hlater : ∃ kept, highestEpoch id kept rest = .error cause := by
        cases highest with
        | none => exact ⟨_, h⟩
        | some current =>
          dsimp only at h
          split at h
          · exact ⟨_, h⟩
          · exact ⟨_, h⟩
      obtain ⟨kept, hkept⟩ := hlater
      obtain ⟨later, hmem, hnamed, hcause⟩ := ih hkept
      exact ⟨later, List.mem_cons_of_mem _ hmem, hnamed, hcause⟩

def Greatest (events : List EffectEvent) (highest : EnvironmentEpoch) : Prop :=
  (∃ event ∈ events, event.key.epoch = highest) ∧
    ∀ event ∈ events, event.key.epoch ≤ highest

theorem adopt_cases (broker : Broker) (id : EnvironmentId) (events : List EffectEvent) :
    ((∃ environment, broker.environments.get id = some environment) ∧
      broker.adopt id (.ok events) = (.error (.alreadyRegistered id), broker)) ∨
    (broker.environments.get id = none ∧ ∃ event ∈ events, event.key.environment ≠ id ∧
      broker.adopt id (.ok events) =
        (.error (.foreignEnvironment id event.key.environment), broker)) ∨
    (broker.environments.get id = none ∧ events = [] ∧
      broker.adopt id (.ok events) = (.error (.nothingToAdopt id), broker)) ∨
    (broker.environments.get id = none ∧ (∀ event ∈ events, event.key.environment = id) ∧
      ∃ highest, Greatest events highest ∧
        ((2 ^ 64 ≤ highest + 1 ∧
            broker.adopt id (.ok events) = (.error (.exhausted id), broker)) ∨
          (highest + 1 < 2 ^ 64 ∧ broker.adopt id (.ok events) =
            (.ok (highest + 1), broker.set id ⟨highest + 1, true⟩)))) := by
  unfold adopt
  cases hget : broker.environments.get id with
  | some environment => exact Or.inl ⟨⟨environment, rfl⟩, rfl⟩
  | none =>
    right
    dsimp only
    cases hhighest : highestEpoch id none events with
    | error cause =>
      obtain ⟨event, hevent, hnamed, rfl⟩ := highestEpoch_error hhighest
      exact Or.inl ⟨rfl, event, hevent, hnamed, rfl⟩
    | ok result =>
      right
      obtain ⟨hall, hbelow, -, hreached⟩ := highestEpoch_ok hhighest
      cases result with
      | none =>
        refine Or.inl ⟨rfl, ?_, rfl⟩
        apply List.eq_nil_iff_forall_not_mem.mpr
        intro event hevent
        obtain ⟨last, hlast, -⟩ := hbelow event hevent
        cases hlast
      | some highest =>
        have hgreatest : Greatest events highest := by
          constructor
          · rcases hreached highest rfl with hnone | hevent
            · cases hnone
            · exact hevent
          · intro event hevent
            obtain ⟨last, hlast, hle⟩ := hbelow event hevent
            cases hlast
            exact hle
        refine Or.inr ⟨rfl, hall, highest, hgreatest, ?_⟩
        by_cases hnext : highest + 1 < 2 ^ 64
        · right
          refine ⟨hnext, ?_⟩
          simp only [checkedNext, if_pos hnext]
        · left
          refine ⟨Nat.not_lt.mp hnext, ?_⟩
          simp only [checkedNext, if_neg hnext]

end Adopting

end Broker

end LogicalWorks.Fence
