import LogicalWorks.Fence.Succession

/-! What fencing gives over any run of brokers and generations.  An adoption sees the epochs of
the active file only, so it moves past the history where the highest epoch stands in it. -/
namespace LogicalWorks.Fence
open Journal (EffectKey EffectEvent EnvironmentId EnvironmentEpoch Handle Wire JournalPosition
  OpenKind ChainStep Tracked tracked_of_open compareAndAppend_ok chained_of_continue
  events_appended)

namespace World

/-- What an adoption owes: a generation past every one the environment's keys were ever
committed at, and no answer that there is nothing to adopt where there is. -/
structure TakesOver (world : World) (owner : Nat) (id : EnvironmentId) : Prop where
  past : ∀ epoch, (world.adoption owner id).1 = .ok epoch →
    ∀ key ∈ world.history, key.environment = id → key.epoch < epoch
  found : (∃ key ∈ world.history, key.environment = id) →
    (world.adoption owner id).1 ≠ .error (.nothingToAdopt id)

/-- Where a broker without the environment adopts a file about it alone, the file's own events
reach the highest epoch of the history. -/
def Reaches (world : World) (owner : Nat) (id : EnvironmentId) : Prop :=
  (world.brokers owner).environments.get id = none →
    (∀ event ∈ world.handle.journal.events, event.key.environment = id) →
      ∀ key ∈ world.history, key.environment = id →
        ∃ event ∈ world.handle.journal.events, key.epoch ≤ event.key.epoch

/-- What holds wherever a run leads: the journal is tracked, its events are in the history, and
generations are 64-bit. -/
structure Kept (wire : Wire) (world : World) : Prop where
  tracked : Tracked wire world.handle
  events : ∀ event ∈ world.handle.journal.events, event.key ∈ world.history
  sized : ∀ key ∈ world.history, key.epoch < 2 ^ 64
  minted : ∀ owner, ∀ authority ∈ world.minted owner, authority.epoch < 2 ^ 64
  held : ∀ owner id environment,
    (world.brokers owner).environments.get id = some environment → environment.epoch < 2 ^ 64

variable {wire : Wire} {world next start final : World} {action : Action}
variable {trace : List (World × Action)} {owner : Nat} {id : EnvironmentId}
variable {epoch : EnvironmentEpoch}

theorem Opening.kept (h : Opening wire world) : Kept wire world where
  tracked := by
    obtain ⟨disk, path, kind, hopen⟩ := h.journal
    exact tracked_of_open hopen
  events := h.history
  sized := h.sized
  minted := by
    intro owner authority hauthority
    rw [h.minted] at hauthority
    cases hauthority
  held := by
    intro owner id environment hget
    rw [h.brokers] at hget
    cases hget

theorem Step.held (h : Step wire world action next)
    (hheld : ∀ owner id environment,
      (world.brokers owner).environments.get id = some environment → environment.epoch < 2 ^ 64) :
    ∀ owner id environment,
      (next.brokers owner).environments.get id = some environment →
        environment.epoch < 2 ^ 64 := by
  intro owner id environment hget
  rcases h.environment owner id with hsame | ⟨-, epoch, hsized, hholds, -⟩ |
    ⟨held, -, hsized, hholds, -⟩ | ⟨before, hbefore, hafter, -⟩
  · rw [hsame] at hget
    exact hheld owner id environment hget
  · rw [hholds] at hget
    cases hget
    exact hsized
  · rw [hholds] at hget
    cases hget
    exact hsized
  · rw [hafter] at hget
    cases hget
    exact hheld owner id before hbefore

theorem Kept.step (lawful : wire.Lawful) (kept : Kept wire world)
    (h : Step wire world action next) : Kept wire next := by
  have hheld := h.held kept.held
  cases h with
  | register owner id => exact ⟨kept.tracked, kept.events, kept.sized, kept.minted, hheld⟩
  | replace owner id => exact ⟨kept.tracked, kept.events, kept.sized, kept.minted, hheld⟩
  | adopt owner id => exact ⟨kept.tracked, kept.events, kept.sized, kept.minted, hheld⟩
  | close owner id => exact ⟨kept.tracked, kept.events, kept.sized, kept.minted, hheld⟩
  | @authorized owner key authority hminted =>
    refine ⟨kept.tracked, kept.events, kept.sized, ?_, hheld⟩
    obtain ⟨hholds, rfl⟩ := Broker.authorize_ok.mp hminted
    intro other warrant hwarrant
    rw [minted_mint] at hwarrant
    by_cases hother : other = owner
    · subst hother
      rw [if_pos rfl] at hwarrant
      rcases List.mem_cons.mp hwarrant with rfl | hwarrant
      · exact kept.held other key.environment _ hholds
      · exact kept.minted other warrant hwarrant
    · rw [if_neg hother] at hwarrant
      exact kept.minted other warrant hwarrant
  | unauthorized hrefused => exact kept
  | revalidate owner authority => exact kept
  | @commit owner tail event handle hwarrant hchain =>
    refine ⟨kept.tracked.kept lawful hchain, ?_, ?_, kept.minted, hheld⟩
    · intro other hother
      cases hchain with
      | append happend =>
        obtain ⟨-, payload, -, -, rfl⟩ := compareAndAppend_ok.mp happend
        change other ∈ (Handle.appended wire world.handle event payload).journal.events at hother
        rw [events_appended] at hother
        rcases List.mem_append.mp hother with hother | hother
        · exact List.mem_append_left _ (kept.events other hother)
        · rw [List.mem_singleton.mp hother]
          exact List.mem_append_right _ (List.mem_singleton_self _)
    · intro key hkey
      rcases List.mem_append.mp hkey with hkey | hkey
      · exact kept.sized key hkey
      · rw [List.mem_singleton.mp hkey]
        exact kept.minted owner _ hwarrant
  | continued hchain =>
    refine ⟨kept.tracked.kept lawful hchain, ?_, kept.sized, kept.minted, hheld⟩
    obtain ⟨closed, hcontinue⟩ := hchain.opened
    obtain ⟨-, -, -, -, -, hempty, -⟩ := chained_of_continue lawful hcontinue
    intro event hevent
    change event ∈ Journal.FileJournal.events _ at hevent
    rw [hempty] at hevent
    cases hevent
  | reopened hchain =>
    refine ⟨kept.tracked.kept lawful hchain, ?_, kept.sized, kept.minted, hheld⟩
    intro event hevent
    cases hchain with
    | reopened hopen =>
      apply kept.events
      rw [← (kept.tracked.reopened hopen).1]
      exact hevent

theorem kept_of_run (lawful : wire.Lawful) (hopening : Opening wire start)
    (run : Run (Step wire) start trace final) : Kept wire final := by
  apply run.always hopening.kept
  intro world action next kept hstep
  exact kept.step lawful hstep

theorem Kept.takesOver_iff (kept : Kept wire world) (owner : Nat) (id : EnvironmentId) :
    world.TakesOver owner id ↔ world.Reaches owner id := by
  rcases (world.brokers owner).adopt_cases id world.handle.journal.events with
    ⟨⟨environment, hget⟩, hcase⟩ | ⟨hnone, event, hevent, hnamed, hcase⟩ | ⟨hnone, hempty, hcase⟩ |
    ⟨hnone, hall, highest, ⟨⟨top, htop, htopEpoch⟩, hbelow⟩, ⟨hspent, hcase⟩ | ⟨hnext, hcase⟩⟩
  · refine iff_of_true ⟨?_, ?_⟩ ?_
    · intro epoch hepoch
      rw [adoption, hcase] at hepoch
      cases hepoch
    · intro _ hnothing
      rw [adoption, hcase] at hnothing
      cases hnothing
    · intro hnone
      rw [hget] at hnone
      cases hnone
  · refine iff_of_true ⟨?_, ?_⟩ ?_
    · intro epoch hepoch
      rw [adoption, hcase] at hepoch
      cases hepoch
    · intro _ hnothing
      rw [adoption, hcase] at hnothing
      cases hnothing
    · intro _ hall
      exact absurd (hall event hevent) hnamed
  · -- Nothing in the file: the adoption refuses, which is right where nothing was ever committed.
    constructor
    · intro htakes _ _ key hkey hid
      refine absurd ?_ (htakes.found ⟨key, hkey, hid⟩)
      rw [adoption, hcase]
    · intro hreaches
      refine ⟨?_, ?_⟩
      · intro epoch hepoch
        rw [adoption, hcase] at hepoch
        cases hepoch
      · rintro ⟨key, hkey, hid⟩
        have hall : ∀ event ∈ world.handle.journal.events, event.key.environment = id := by
          rw [hempty]
          intro event hevent
          cases hevent
        obtain ⟨event, hevent, -⟩ := hreaches hnone hall key hkey hid
        rw [hempty] at hevent
        cases hevent
  · -- The counter is spent: the adoption claims nothing, and the file holds the last epoch.
    refine iff_of_true ⟨?_, ?_⟩ ?_
    · intro epoch hepoch
      rw [adoption, hcase] at hepoch
      cases hepoch
    · intro _ hnothing
      rw [adoption, hcase] at hnothing
      cases hnothing
    · intro _ _ key hkey _
      refine ⟨top, htop, ?_⟩
      rw [htopEpoch]
      exact Nat.le_of_lt_succ (Nat.lt_of_lt_of_le (kept.sized key hkey) hspent)
  · constructor
    · intro htakes _ _ key hkey hid
      have hpast := htakes.past (highest + 1) (by rw [adoption, hcase]) key hkey hid
      refine ⟨top, htop, ?_⟩
      rw [htopEpoch]
      exact Nat.le_of_lt_succ hpast
    · intro hreaches
      refine ⟨?_, ?_⟩
      · intro epoch hepoch key hkey hid
        rw [adoption, hcase] at hepoch
        cases hepoch
        obtain ⟨event, hevent, hle⟩ := hreaches hnone hall key hkey hid
        exact Nat.lt_succ_of_le (Nat.le_trans hle (hbelow event hevent))
      · intro _ hnothing
        rw [adoption, hcase] at hnothing
        cases hnothing

section Warrants

theorem Step.rises (h : Step wire world action next)
    (hepoch : ∃ later, (world.brokers owner).epoch id = some later ∧ epoch ≤ later) :
    ∃ later, (next.brokers owner).epoch id = some later ∧ epoch ≤ later := by
  obtain ⟨later, hlater, hle⟩ := hepoch
  unfold Broker.epoch at hlater ⊢
  rcases h.environment owner id with hsame | ⟨hnone, -⟩ | ⟨held, hholds, -, hafter, -⟩ |
    ⟨before, hbefore, hafter, -⟩
  · rw [hsame]
    exact ⟨later, hlater, hle⟩
  · rw [hnone] at hlater
    cases hlater
  · rw [hholds] at hlater
    cases hlater
    rw [hafter]
    exact ⟨_, rfl, Nat.le_succ_of_le hle⟩
  · rw [hbefore] at hlater
    cases hlater
    rw [hafter]
    exact ⟨_, rfl, hle⟩

theorem rises_of_run (run : Run (Step wire) start trace final)
    (hepoch : (start.brokers owner).epoch id = some epoch) :
    ∃ later, (final.brokers owner).epoch id = some later ∧ epoch ≤ later := by
  apply run.always ⟨epoch, hepoch, Nat.le_refl epoch⟩
  intro world action next hworld hstep
  exact hstep.rises hworld

theorem Step.holds (h : Step wire world action next) (hholds : (world.brokers owner).Holds id epoch)
    (hunretired : ¬ Retires owner id world action) : (next.brokers owner).Holds id epoch := by
  rcases h.environment owner id with hsame | ⟨hnone, -⟩ | ⟨held, -, -, -, haction, hok⟩ |
    ⟨environment, -, -, haction, hok⟩
  · unfold Broker.Holds
    rw [hsame]
    exact hholds
  · rw [hholds] at hnone
    cases hnone
  · refine absurd (Or.inl ⟨haction, ?_⟩) hunretired
    subst haction
    rintro ⟨cause, hcause⟩
    rw [hok] at hcause
    cases hcause
  · refine absurd (Or.inr ⟨haction, ?_⟩) hunretired
    subst haction
    rintro ⟨cause, hcause⟩
    rw [hok] at hcause
    cases hcause

def Past (owner : Nat) (id : EnvironmentId) (epoch : EnvironmentEpoch) (world : World) : Prop :=
  ∃ environment, (world.brokers owner).environments.get id = some environment ∧
    (epoch < environment.epoch ∨ environment.isOpen = false)

theorem Past.step (h : Step wire world action next) (hpast : Past owner id epoch world) :
    Past owner id epoch next := by
  obtain ⟨environment, hget, hgone⟩ := hpast
  rcases h.environment owner id with hsame | ⟨hnone, -⟩ | ⟨held, hholds, -, hafter, -⟩ |
    ⟨before, hbefore, hafter, -⟩
  · exact ⟨environment, hsame.trans hget, hgone⟩
  · rw [hnone] at hget
    cases hget
  · rw [hholds] at hget
    cases hget
    rcases hgone with hless | hclosed
    · exact ⟨_, hafter, Or.inl (Nat.lt_succ_of_lt hless)⟩
    · cases hclosed
  · exact ⟨_, hafter, Or.inr rfl⟩

theorem Past.retired (h : Step wire world action next)
    (hepoch : ∃ later, (world.brokers owner).epoch id = some later ∧ epoch ≤ later)
    (hretires : Retires owner id world action) : Past owner id epoch next := by
  obtain ⟨later, hlater, hle⟩ := hepoch
  rcases hretires with ⟨rfl, haccepted⟩ | ⟨rfl, haccepted⟩
  · cases h with
    | replace owner id =>
      rcases (world.brokers owner).replace_cases id with ⟨cause, hcase⟩ | ⟨held, hholds, -, hcase⟩
      · exact absurd ⟨cause, by rw [hcase]⟩ haccepted
      · unfold Broker.epoch at hlater
        rw [hholds] at hlater
        cases hlater
        rw [hcase]
        refine ⟨⟨held + 1, true⟩, ?_, Or.inl (Nat.lt_succ_of_le hle)⟩
        rw [brokers_hold_self, Broker.get_set, if_pos rfl]
  · cases h with
    | close owner id =>
      rcases (world.brokers owner).close_cases id with ⟨-, hcase⟩ | ⟨environment, hget, hcase⟩
      · exact absurd ⟨_, by rw [hcase]⟩ haccepted
      · rw [hcase]
        refine ⟨⟨environment.epoch, false⟩, ?_, Or.inr rfl⟩
        rw [brokers_hold_self, Broker.get_set, if_pos rfl]

theorem Past.not_holds (hpast : Past owner id epoch world) :
    ¬ (world.brokers owner).Holds id epoch := by
  intro hholds
  obtain ⟨environment, hget, hgone⟩ := hpast
  rw [hholds] at hget
  cases hget
  rcases hgone with hless | hclosed
  · exact Nat.lt_irrefl _ hless
  · cases hclosed

/-- A generation held at the start of a run is held at its end exactly when no step of the run
retired it. -/
theorem holds_iff_of_run (run : Run (Step wire) start trace final)
    (hholds : (start.brokers owner).Holds id epoch) :
    (final.brokers owner).Holds id epoch ↔
      ∀ taken ∈ trace, ¬ Retires owner id taken.1 taken.2 := by
  constructor
  · intro hfinal taken htaken hretires
    have hstart : (start.brokers owner).epoch id = some epoch := by
      unfold Broker.epoch
      rw [hholds]
      rfl
    refine @Past.not_holds final owner id epoch ?_ hfinal
    refine @Run.persists World Action (Step wire) start final trace
      (fun world => ∃ later, (world.brokers owner).epoch id = some later ∧ epoch ≤ later)
      (Past owner id epoch) (Retires owner id) run ⟨epoch, hstart, Nat.le_refl epoch⟩
      ?_ ?_ ?_ ⟨taken, htaken, hretires⟩
    · intro world action next hepoch hstep
      exact hstep.rises hepoch
    · intro world action next hepoch hbad hstep
      exact Past.retired hstep hepoch hbad
    · intro world action next _ hpast hstep
      exact Past.step hstep hpast
  · intro hunretired
    refine @Run.invariant World Action (Step wire) start final trace
      (fun world => (world.brokers owner).Holds id epoch)
      (fun world action => ¬ Retires owner id world action) run hholds ?_ hunretired
    intro world action next hworld hallowed hstep
    exact hstep.holds hworld hallowed

end Warrants

/-- Fencing within a run, whatever its brokers and its journal go through. -/
structure Fenced (wire : Wire) (trace : List (World × Action)) (final : World) : Prop where
  rises : ∀ taken ∈ trace, ∀ owner id epoch, (taken.1.brokers owner).epoch id = some epoch →
    ∃ later, (final.brokers owner).epoch id = some later ∧ epoch ≤ later
  replaced : ∀ (broker : Broker) id epoch, (broker.replace id).1 = .ok epoch →
    ∃ held, broker.epoch id = some held ∧ held < epoch ∧
      (broker.replace id).2.epoch id = some epoch
  authorized : ∀ (broker : Broker) key, (∃ authority, broker.authorize key = .ok authority) ↔
    broker.epoch key.environment = some key.epoch ∧ broker.isOpen key.environment = true
  /-- A warrant stands until a replacement or a closing of its environment, and never after. -/
  lasting : ∀ earlier later world owner key authority,
    trace = earlier ++ (world, .authorize owner key) :: later →
      (world.brokers owner).authorize key = .ok authority →
        ((final.brokers owner).revalidate authority = .ok () ↔
          ∀ taken ∈ later, ¬ Retires owner key.environment taken.1 taken.2)
  refused : ∀ world action next, Step wire world action next → world.Refuses action →
    next = world

theorem replaced (broker : Broker) (h : (broker.replace id).1 = .ok epoch) :
    ∃ held, broker.epoch id = some held ∧ held < epoch ∧
      (broker.replace id).2.epoch id = some epoch := by
  rcases broker.replace_cases id with ⟨cause, hcase⟩ | ⟨held, hholds, -, hcase⟩
  · rw [hcase] at h
    cases h
  · rw [hcase] at h ⊢
    cases h
    refine ⟨held, ?_, Nat.lt_succ_self held, ?_⟩
    · unfold Broker.epoch
      rw [hholds]
      rfl
    · unfold Broker.epoch
      rw [Broker.get_set, if_pos rfl]
      rfl

theorem authorized_iff (broker : Broker) (key : EffectKey) :
    (∃ authority, broker.authorize key = .ok authority) ↔
      broker.epoch key.environment = some key.epoch ∧ broker.isOpen key.environment = true := by
  simp only [Broker.authorize_ok, exists_and_left, exists_eq, and_true]
  unfold Broker.Holds Broker.epoch Broker.isOpen
  cases broker.environments.get key.environment with
  | none => simp
  | some environment =>
    obtain ⟨held, isOpen⟩ := environment
    simp

theorem fenced_of_run (run : Run (Step wire) start trace final) : Fenced wire trace final where
  rises := by
    intro taken htaken owner id epoch hepoch
    obtain ⟨earlier, later, -, -, hafter⟩ := run.cut htaken
    exact rises_of_run hafter hepoch
  replaced broker _ _ := replaced broker
  authorized := authorized_iff
  lasting := by
    intro earlier later world owner key authority htrace hauthority
    subst htrace
    obtain ⟨middle, -, hafter⟩ := run.split
    obtain ⟨rfl, next, hstep, hrest⟩ := hafter.head
    obtain ⟨hholds, rfl⟩ := Broker.authorize_ok.mp hauthority
    have hkept : (next.brokers owner).Holds key.environment key.epoch := by
      apply hstep.holds hholds
      rintro (⟨haction, -⟩ | ⟨haction, -⟩)
      · cases haction
      · cases haction
    rw [Broker.revalidate_ok]
    exact holds_iff_of_run hrest hkept
  refused _ _ _ hstep hrefuses := hstep.refused hrefuses

/-- Fencing holds in every run, and across its takeovers exactly where each adoption of a file
finds the highest epoch of its history in it. -/
theorem fencing_survives (lawful : wire.Lawful) (hopening : Opening wire start)
    (run : Run (Step wire) start trace final) :
    Fenced wire trace final ∧
      ((∀ taken ∈ trace, ∀ owner id, taken.2 = .adopt owner id → taken.1.TakesOver owner id) ↔
        ∀ taken ∈ trace, ∀ owner id, taken.2 = .adopt owner id → taken.1.Reaches owner id) := by
  refine ⟨fenced_of_run run, ?_⟩
  have hiff : ∀ taken ∈ trace, ∀ owner id,
      taken.1.TakesOver owner id ↔ taken.1.Reaches owner id := by
    intro taken htaken owner id
    obtain ⟨earlier, later, -, hbefore, -⟩ := run.cut htaken
    exact (kept_of_run lawful hopening hbefore).takesOver_iff owner id
  constructor
  · intro htakes taken htaken owner id haction
    exact (hiff taken htaken owner id).mp (htakes taken htaken owner id haction)
  · intro hreaches taken htaken owner id haction
    exact (hiff taken htaken owner id).mpr (hreaches taken htaken owner id haction)

end World

end LogicalWorks.Fence

/-! A run whose history is sealed away from the broker that takes over. -/
namespace LogicalWorks.Fence.Sealed
open Journal (EffectKey EffectEvent Handle FileJournal ScanState Admits Openable
  compareAndAppend_ok openImpl_framesBytes ChainStep)
open Journal.PlainWire

def keyAt (action epoch : Nat) : EffectKey :=
  ⟨0, action, 1, spell 0 0, spell 0 0, 7, epoch⟩

def earlier : EffectEvent := .intentAdmitted (keyAt 1 1)
def later : EffectEvent := .intentAdmitted (keyAt 2 2)
def settling : EffectEvent := .dispatchPrepared (keyAt 1 1)

def freshHandle : Handle :=
  ⟨((diskOf base []).write base []).lock base,
    .ofState plain base (.continuing .declared) (.start plain) false⟩

def earlierHandle : Handle := freshHandle.appended plain earlier (eventToBytes earlier)
def laterHandle : Handle := earlierHandle.appended plain later (eventToBytes later)
def sealedHandle : Handle := continuedHandle laterHandle
def settlingHandle : Handle := sealedHandle.appended plain settling (eventToBytes settling)

def fresh : World := ⟨freshHandle, fun _ => .new, fun _ => [], []⟩
def registered : World := fresh.hold 0 ((fresh.brokers 0).register 7).2
def firstMinted : World := registered.mint 0 (warrantOf (keyAt 1 1))
def replaced : World := firstMinted.hold 0 ((firstMinted.brokers 0).replace 7).2
def secondMinted : World := replaced.mint 0 (warrantOf (keyAt 2 2))
def firstCommitted : World := secondMinted.record earlierHandle (keyAt 1 1)
def committed : World := firstCommitted.record laterHandle (keyAt 2 2)

def sealedWorld : World := { committed with handle := sealedHandle }

def settledWorld : World := sealedWorld.record settlingHandle (keyAt 1 1)

theorem opening_fresh : World.Opening plain fresh where
  journal := by
    refine ⟨diskOf base [], base, .continuing .declared, ?_⟩
    have hopenable : Openable plain (diskOf base []) base [] (.start plain) := by
      refine ⟨by decide, rfl, ?_, ?_, ?_, rfl⟩
      all_goals decide +kernel
    exact openImpl_framesBytes hopenable _ rfl
  brokers := rfl
  minted := rfl
  history := by
    intro event hevent
    cases hevent
  sized := by
    intro key hkey
    cases hkey

theorem append_earlier : ChainStep plain freshHandle
    (.append freshHandle.journal.position earlier) earlierHandle := by
  have hadmits : Admits plain freshHandle earlier (eventToBytes earlier) := by
    refine ⟨⟨?_, ?_, rfl, ?_, ?_, ?_⟩, ?_, ?_⟩
    all_goals decide +kernel
  exact .append (compareAndAppend_ok.mpr ⟨rfl, _, hadmits, rfl, rfl⟩)

theorem append_later : ChainStep plain earlierHandle
    (.append earlierHandle.journal.position later) laterHandle := by
  have hadmits : Admits plain earlierHandle later (eventToBytes later) := by
    refine ⟨⟨?_, ?_, rfl, ?_, ?_, ?_⟩, ?_, ?_⟩
    all_goals decide +kernel
  exact .append (compareAndAppend_ok.mpr ⟨rfl, _, hadmits, rfl, rfl⟩)

theorem continue_later : ChainStep plain laterHandle .continued sealedHandle := by
  apply continue_plain
  all_goals decide +kernel

theorem append_settling : ChainStep plain sealedHandle
    (.append sealedHandle.journal.position settling) settlingHandle := by
  have hadmits : Admits plain sealedHandle settling (eventToBytes settling) := by
    refine ⟨⟨?_, ?_, rfl, ?_, ?_, ?_⟩, ?_, ?_⟩
    all_goals decide +kernel
  exact .append (compareAndAppend_ok.mpr ⟨rfl, _, hadmits, rfl, rfl⟩)

def committedTrace : List (World × Action) :=
  [(fresh, .register 0 7), (registered, .authorize 0 (keyAt 1 1)), (firstMinted, .replace 0 7),
    (replaced, .authorize 0 (keyAt 2 2)),
    (secondMinted, .commit 0 freshHandle.journal.position earlier),
    (firstCommitted, .commit 0 earlierHandle.journal.position later)]

def sealedTrace : List (World × Action) :=
  committedTrace ++ [(committed, .continued)]

def settledTrace : List (World × Action) :=
  sealedTrace ++ [(sealedWorld, .commit 0 sealedHandle.journal.position settling)]

def adoptedTrace : List (World × Action) :=
  committedTrace ++ [(committed, .adopt 1 7)]

theorem run_committed : Run (World.Step plain) fresh committedTrace committed := by
  have hfirst : (registered.brokers 0).authorize (keyAt 1 1) = .ok (warrantOf (keyAt 1 1)) := rfl
  have hsecond : (replaced.brokers 0).authorize (keyAt 2 2) = .ok (warrantOf (keyAt 2 2)) := rfl
  have hearlier : warrantOf earlier.key ∈ secondMinted.minted 0 := by decide +kernel
  have hlater : warrantOf later.key ∈ firstCommitted.minted 0 := by decide +kernel
  exact .snoc (.snoc (.snoc (.snoc (.snoc (.snoc .refl (.register fresh 0 7))
    (.authorized hfirst)) (.replace firstMinted 0 7)) (.authorized hsecond))
    (.commit hearlier append_earlier)) (.commit hlater append_later)

theorem run_sealed : Run (World.Step plain) fresh sealedTrace sealedWorld :=
  .snoc run_committed (.continued continue_later)

theorem run_settled : Run (World.Step plain) fresh settledTrace settledWorld := by
  have hwarrant : warrantOf settling.key ∈ sealedWorld.minted 0 := by decide +kernel
  exact .snoc run_sealed (.commit hwarrant append_settling)

/-- A seal later the broker that takes over finds nothing to adopt, or claims the generation of a
key its predecessor committed. -/
theorem history_sealed_away :
    World.Opening plain fresh ∧ Run (World.Step plain) fresh sealedTrace sealedWorld ∧
      (sealedWorld.adoption 1 7).1 = .error (.nothingToAdopt 7) ∧ ¬ sealedWorld.TakesOver 1 7 ∧
      Run (World.Step plain) fresh settledTrace settledWorld ∧
      (settledWorld.adoption 1 7).1 = .ok 2 ∧ ¬ settledWorld.TakesOver 1 7 := by
  have hnothing : (sealedWorld.adoption 1 7).1 = .error (.nothingToAdopt 7) := by decide +kernel
  have hclaims : (settledWorld.adoption 1 7).1 = .ok 2 := by decide +kernel
  have hsealed : keyAt 2 2 ∈ sealedWorld.history := by decide +kernel
  have hsettled : keyAt 2 2 ∈ settledWorld.history := by decide +kernel
  refine ⟨opening_fresh, run_sealed, hnothing, ?_, run_settled, hclaims, ?_⟩
  · intro htakes
    exact htakes.found ⟨keyAt 2 2, hsealed, rfl⟩ hnothing
  · intro htakes
    exact Nat.lt_irrefl 2 (htakes.past 2 hclaims (keyAt 2 2) hsettled rfl)

theorem fencing_survives_adopted :
    World.Fenced plain adoptedTrace (committed.hold 1 (committed.adoption 1 7).2) ∧
      ((∀ taken ∈ adoptedTrace, ∀ owner id, taken.2 = .adopt owner id →
          taken.1.TakesOver owner id) ↔
        ∀ taken ∈ adoptedTrace, ∀ owner id, taken.2 = .adopt owner id →
          taken.1.Reaches owner id) :=
  World.fencing_survives lawful_plain opening_fresh (.snoc run_committed (.adopt committed 1 7))

end LogicalWorks.Fence.Sealed
