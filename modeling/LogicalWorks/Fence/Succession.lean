import LogicalWorks.Fence.Broker

/-! Brokers that succeed one another over one journal.  The journal is the active file of a
chain of generations, and the history what was ever committed to it. -/
namespace LogicalWorks.Fence
open Journal (EffectKey EffectEvent EnvironmentId EnvironmentEpoch Handle Wire JournalPosition
  OpenKind ChainStep openImpl)

structure World where
  handle : Handle
  brokers : Nat → Broker
  /-- The warrants each broker minted. -/
  minted : Nat → List Authority
  /-- The keys of every event ever committed, to this file or to one it continues. -/
  history : List EffectKey

inductive Action where
  | register (owner : Nat) (id : EnvironmentId)
  | replace (owner : Nat) (id : EnvironmentId)
  | adopt (owner : Nat) (id : EnvironmentId)
  | close (owner : Nat) (id : EnvironmentId)
  | authorize (owner : Nat) (key : EffectKey)
  | revalidate (owner : Nat) (authority : Authority)
  | commit (owner : Nat) (expectedTail : JournalPosition) (event : EffectEvent)
  | continued
  | reopened (kind : OpenKind)

def warrantOf (key : EffectKey) : Authority := ⟨key.environment, key.epoch⟩

namespace World

def hold (world : World) (owner : Nat) (broker : Broker) : World :=
  { world with brokers := Function.update world.brokers owner broker }

def mint (world : World) (owner : Nat) (authority : Authority) : World :=
  { world with
    minted := Function.update world.minted owner (authority :: world.minted owner) }

def record (world : World) (handle : Handle) (key : EffectKey) : World :=
  { world with handle, history := world.history ++ [key] }

def adoption (world : World) (owner : Nat) (id : EnvironmentId) :
    Except BrokerError EnvironmentEpoch × Broker :=
  (world.brokers owner).adopt id (.ok world.handle.journal.events)

def Refuses (world : World) : Action → Prop
  | .register owner id => ∃ cause, ((world.brokers owner).register id).1 = .error cause
  | .replace owner id => ∃ cause, ((world.brokers owner).replace id).1 = .error cause
  | .adopt owner id => ∃ cause, (world.adoption owner id).1 = .error cause
  | .close owner id => ∃ cause, ((world.brokers owner).close id).1 = .error cause
  | .authorize owner key => ∃ cause, (world.brokers owner).authorize key = .error cause
  | .revalidate owner authority =>
    ∃ cause, (world.brokers owner).revalidate authority = .error cause
  | .commit _ _ _ | .continued | .reopened _ => False

inductive Step (wire : Wire) : World → Action → World → Prop where
  | register (world : World) (owner : Nat) (id : EnvironmentId) :
      Step wire world (.register owner id)
        (world.hold owner ((world.brokers owner).register id).2)
  | replace (world : World) (owner : Nat) (id : EnvironmentId) :
      Step wire world (.replace owner id)
        (world.hold owner ((world.brokers owner).replace id).2)
  | adopt (world : World) (owner : Nat) (id : EnvironmentId) :
      Step wire world (.adopt owner id) (world.hold owner (world.adoption owner id).2)
  | close (world : World) (owner : Nat) (id : EnvironmentId) :
      Step wire world (.close owner id) (world.hold owner ((world.brokers owner).close id).2)
  | authorized {world : World} {owner : Nat} {key : EffectKey} {authority : Authority}
      (h : (world.brokers owner).authorize key = .ok authority) :
      Step wire world (.authorize owner key) (world.mint owner authority)
  | unauthorized {world : World} {owner : Nat} {key : EffectKey} {cause : BrokerError}
      (h : (world.brokers owner).authorize key = .error cause) :
      Step wire world (.authorize owner key) world
  | revalidate (world : World) (owner : Nat) (authority : Authority) :
      Step wire world (.revalidate owner authority) world
  /-- A broker's keys are committed only under warrants it minted. -/
  | commit {world : World} {owner : Nat} {tail : JournalPosition} {event : EffectEvent}
      {next : Handle} (hwarrant : warrantOf event.key ∈ world.minted owner)
      (h : ChainStep wire world.handle (.append tail event) next) :
      Step wire world (.commit owner tail event) (world.record next event.key)
  | continued {world : World} {next : Handle} (h : ChainStep wire world.handle .continued next) :
      Step wire world .continued { world with handle := next }
  | reopened {world : World} {kind : OpenKind} {next : Handle}
      (h : ChainStep wire world.handle (.reopened kind) next) :
      Step wire world (.reopened kind) { world with handle := next }

/-- A journal just opened, whose events are among the history, and brokers that own nothing.
Generations are 64-bit. -/
structure Opening (wire : Wire) (world : World) : Prop where
  journal : ∃ disk path kind,
    openImpl wire disk path kind = (.ok world.handle.journal, world.handle.disk)
  brokers : world.brokers = fun _ => Broker.new
  minted : world.minted = fun _ => []
  history : ∀ event ∈ world.handle.journal.events, event.key ∈ world.history
  sized : ∀ key ∈ world.history, key.epoch < 2 ^ 64

def Retires (owner : Nat) (id : EnvironmentId) (world : World) (action : Action) : Prop :=
  (action = .replace owner id ∧ ¬ world.Refuses action) ∨
    (action = .close owner id ∧ ¬ world.Refuses action)

variable {wire : Wire} {world next start final : World} {action : Action}
variable {trace : List (World × Action)} {owner : Nat} {id : EnvironmentId}

@[simp] theorem brokers_hold_self (world : World) (owner : Nat) (broker : Broker) :
    (world.hold owner broker).brokers owner = broker := Function.update_self _ _ _

theorem brokers_hold_of_ne (world : World) {owner other : Nat} (broker : Broker)
    (h : other ≠ owner) : (world.hold owner broker).brokers other = world.brokers other :=
  Function.update_of_ne h _ _

theorem minted_mint (world : World) (owner other : Nat) (authority : Authority) :
    (world.mint owner authority).minted other =
      if other = owner then authority :: world.minted owner else world.minted other := by
  unfold mint
  exact Function.update_apply _ _ _ _

@[simp] theorem hold_same (world : World) (owner : Nat) :
    world.hold owner (world.brokers owner) = world := by
  unfold hold
  rw [Function.update_eq_self]

theorem Step.refused (h : Step wire world action next) (hrefuses : world.Refuses action) :
    next = world := by
  cases h with
  | register owner id =>
    obtain ⟨cause, hcause⟩ := hrefuses
    rcases (world.brokers owner).register_cases id with ⟨-, hcase⟩ | ⟨-, hcase⟩
    · rw [hcase, hold_same]
    · rw [hcase] at hcause
      cases hcause
  | replace owner id =>
    obtain ⟨cause, hcause⟩ := hrefuses
    rcases (world.brokers owner).replace_cases id with ⟨other, hcase⟩ | ⟨held, -, -, hcase⟩
    · rw [hcase, hold_same]
    · rw [hcase] at hcause
      cases hcause
  | adopt owner id =>
    obtain ⟨cause, hcause⟩ := hrefuses
    unfold adoption at hcause ⊢
    rcases (world.brokers owner).adopt_cases id world.handle.journal.events with
      ⟨-, hcase⟩ | ⟨-, event, -, -, hcase⟩ | ⟨-, -, hcase⟩ |
      ⟨-, -, highest, -, ⟨-, hcase⟩ | ⟨-, hcase⟩⟩
    · rw [hcase, hold_same]
    · rw [hcase, hold_same]
    · rw [hcase, hold_same]
    · rw [hcase, hold_same]
    · rw [hcase] at hcause
      cases hcause
  | close owner id =>
    obtain ⟨cause, hcause⟩ := hrefuses
    rcases (world.brokers owner).close_cases id with ⟨-, hcase⟩ | ⟨environment, -, hcase⟩
    · rw [hcase, hold_same]
    · rw [hcase] at hcause
      cases hcause
  | authorized hminted =>
    obtain ⟨cause, hcause⟩ := hrefuses
    rw [hminted] at hcause
    cases hcause
  | unauthorized hrefused => rfl
  | revalidate owner authority => rfl
  | commit hwarrant hchain => exact hrefuses.elim
  | continued hchain => exact hrefuses.elim
  | reopened hchain => exact hrefuses.elim

/-- All a step does to what a broker holds of an environment: it takes it up while unknown,
moves it one generation on while open, or closes it; and only an action named so does. -/
theorem Step.environment (h : Step wire world action next) (owner : Nat) (id : EnvironmentId) :
    (next.brokers owner).environments.get id = (world.brokers owner).environments.get id ∨
    ((world.brokers owner).environments.get id = none ∧ ∃ epoch, epoch < 2 ^ 64 ∧
      (next.brokers owner).Holds id epoch ∧ (action = .register owner id ∨
        action = .adopt owner id)) ∨
    (∃ held, (world.brokers owner).Holds id held ∧ held + 1 < 2 ^ 64 ∧
      (next.brokers owner).Holds id (held + 1) ∧ action = .replace owner id ∧
        ((world.brokers owner).replace id).1 = .ok (held + 1)) ∨
    (∃ environment, (world.brokers owner).environments.get id = some environment ∧
      (next.brokers owner).environments.get id = some ⟨environment.epoch, false⟩ ∧
        action = .close owner id ∧ ((world.brokers owner).close id).1 = .ok ()) := by
  -- A broker that is not asked, and an environment that is not named, stay what they were.
  have helse : ∀ (asked : Nat) (named : EnvironmentId) (environment : Environment),
      ¬ (owner = asked ∧ id = named) →
      ((world.hold asked ((world.brokers asked).set named environment)).brokers
          owner).environments.get id = (world.brokers owner).environments.get id := by
    intro asked named environment hother
    by_cases howner : owner = asked
    · subst howner
      rw [brokers_hold_self, Broker.get_set, if_neg (fun hid => hother ⟨rfl, hid⟩)]
    · rw [brokers_hold_of_ne _ _ howner]
  have hset : ∀ environment : Environment,
      ((world.hold owner ((world.brokers owner).set id environment)).brokers
        owner).environments.get id = some environment := by
    intro environment
    rw [brokers_hold_self, Broker.get_set, if_pos rfl]
  cases h with
  | register asked named =>
    rcases (world.brokers asked).register_cases named with ⟨-, hcase⟩ | ⟨hnone, hcase⟩
    · left
      rw [hcase, hold_same]
    · rw [hcase]
      by_cases hsame : owner = asked ∧ id = named
      · obtain ⟨rfl, rfl⟩ := hsame
        refine Or.inr (Or.inl ⟨hnone, 1, ?_, hset _, Or.inl rfl⟩)
        exact Nat.one_lt_two_pow (by decide)
      · exact Or.inl (helse _ _ _ hsame)
  | replace asked named =>
    rcases (world.brokers asked).replace_cases named with
      ⟨cause, hcase⟩ | ⟨held, hholds, hnext, hcase⟩
    · left
      rw [hcase, hold_same]
    · rw [hcase]
      by_cases hsame : owner = asked ∧ id = named
      · obtain ⟨rfl, rfl⟩ := hsame
        refine Or.inr (Or.inr (Or.inl ⟨held, hholds, hnext, hset _, rfl, ?_⟩))
        rw [hcase]
      · exact Or.inl (helse _ _ _ hsame)
  | adopt asked named =>
    unfold adoption
    rcases (world.brokers asked).adopt_cases named world.handle.journal.events with
      ⟨-, hcase⟩ | ⟨-, event, -, -, hcase⟩ | ⟨-, -, hcase⟩ |
      ⟨hnone, -, highest, -, ⟨-, hcase⟩ | ⟨hnext, hcase⟩⟩
    · left
      rw [hcase, hold_same]
    · left
      rw [hcase, hold_same]
    · left
      rw [hcase, hold_same]
    · left
      rw [hcase, hold_same]
    · rw [hcase]
      by_cases hsame : owner = asked ∧ id = named
      · obtain ⟨rfl, rfl⟩ := hsame
        exact Or.inr (Or.inl ⟨hnone, _, hnext, hset _, Or.inr rfl⟩)
      · exact Or.inl (helse _ _ _ hsame)
  | close asked named =>
    rcases (world.brokers asked).close_cases named with
      ⟨-, hcase⟩ | ⟨environment, hget, hcase⟩
    · left
      rw [hcase, hold_same]
    · rw [hcase]
      by_cases hsame : owner = asked ∧ id = named
      · obtain ⟨rfl, rfl⟩ := hsame
        refine Or.inr (Or.inr (Or.inr ⟨environment, hget, hset _, rfl, ?_⟩))
        rw [hcase]
      · exact Or.inl (helse _ _ _ hsame)
  | authorized hminted => exact Or.inl rfl
  | unauthorized hrefused => exact Or.inl rfl
  | revalidate asked authority => exact Or.inl rfl
  | commit hwarrant hchain => exact Or.inl rfl
  | continued hchain => exact Or.inl rfl
  | reopened hchain => exact Or.inl rfl

end World

end LogicalWorks.Fence
