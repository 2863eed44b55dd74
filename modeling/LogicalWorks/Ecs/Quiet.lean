import LogicalWorks.Ecs.Observation

/-! The schedule of a tick: the fold of the observations, the plan decided on what it committed, and
the two shortcuts of a tick on which nothing moved. -/
namespace LogicalWorks.Ecs

structure Plan where
  steps : List Step
  failures : List (Nat × BotError)
  deriving DecidableEq, Repr

namespace Plan

def empty : Plan := ⟨[], []⟩

end Plan

structure SharedWorld (V J : Type) where
  chains : List (EcsChain (Erased V))
  seen : ObservedWorld V
  ledger : Ledger (Erased V) J
  retry : RetryReading
  plan : Plan

/-- The world with what only the schedule writes: whether the change query was built, and the
chains whose revision was written since `fire_plan` last ran. -/
structure World (V J : Type) extends SharedWorld V J where
  movers : Bool
  written : List Bool

inductive Admit where
  | keep
  | bind (input : AdmittedInput)
  deriving DecidableEq, Repr

namespace EcsBot.AdmitKind

def binds : AdmitKind → Bool
  | .resume | .open => true
  | .keep | .idle => false

def binding : AdmitKind → Option AdmittedInput → Admit
  | .resume, some input | .open, some input => .bind input
  | _, _ => .keep

end EcsBot.AdmitKind

namespace World
open EcsBot (AdmitKind)

variable {V J : Type}

/-- A world just built: its revisions count as written, since they were spawned. -/
def assemble (shared : SharedWorld V J) : World V J :=
  { shared with movers := false, written := shared.chains.map fun _ => true }

def outside (change : SharedWorld V J → SharedWorld V J) (world : World V J) : World V J :=
  { world with toSharedWorld := change world.toSharedWorld }

def clearPlan (world : World V J) : World V J := { world with plan := .empty }

/-- A run of `fire_plan` is over: the next one asks for what is written from here on. -/
def ran (world : World V J) : World V J :=
  { world with written := world.written.map fun _ => false }

def bumped (before after : ObservedWorld V) (index : Nat) : Bool :=
  (before.chains[index]?).map ObservedChain.revision ≠
    (after.chains[index]?).map ObservedChain.revision

def observeFold (world : World V J) : World V J :=
  { world with
    seen := world.seen.observeFold
    written := world.written.mapIdx fun index written =>
      written || bumped world.seen world.seen.observeFold index }

def noTransitionHeld (world : World V J) : Bool := world.ledger.transitions.all Option.isNone

def settleQuietTick (world : World V J) : Option (World V J) :=
  if !world.seen.parked && world.seen.polled.isEmpty && world.movers && world.noTransitionHeld then
    some { world.clearPlan with seen := world.seen.clearMoved }
  else none

def quietTick (world : World V J) : Bool :=
  world.movers && !world.seen.moved.any id && world.noTransitionHeld

def slot (world : World V J) (index : Nat) : Option (Erased V) :=
  (world.seen.chains[index]?).bind ObservedChain.observed

def revisionOf (world : World V J) (index : Nat) : Nat :=
  (world.seen.chains[index]?).elim 0 fun chain => chain.revision.toNat

def onChain (world : World V J) (index : Nat) (change : ObservedChain V → ObservedChain V) :
    World V J :=
  { world with seen := { world.seen with chains := world.seen.chains.modify index change } }

def moving (world : World V J) : List Bool :=
  world.chains.mapIdx fun index _ => (world.written[index]?).getD false

def kindOf (world : World V J) (moving : List Bool) (index : Nat) (chain : EcsChain (Erased V)) :
    AdmitKind :=
  match world.ledger.transition index with
  | some transition =>
    if transition.hasOpen then .keep
    else if EcsBot.admits chain (world.slot index) transition.value then .resume else .keep
  | none => if moving[index]? = some true && (world.slot index).isSome then .open else .idle

def planAdmissions (world : World V J) (moving : List Bool) : List AdmitKind :=
  world.chains.mapIdx (world.kindOf moving)

def deriveInputs (world : World V J) (kinds : List AdmitKind) : List (Option AdmittedInput) :=
  world.chains.mapIdx fun index chain =>
    if (kinds[index]?).any AdmitKind.binds then (world.slot index).map chain.identify else none

def mintInputs [Hashing] : List AdmitKind → List (Option AdmittedInput) → Ledger (Erased V) J →
    List (Option AdmittedInput) × Ledger (Erased V) J
  | kind :: kinds, input :: inputs, ledger =>
    if kind.binds && input.isNone then
      let others := mintInputs kinds inputs ledger.mintInput.2
      (some ⟨ledger.mintInput.1, false⟩ :: others.1, others.2)
    else
      let others := mintInputs kinds inputs ledger
      (input :: others.1, others.2)
  | _, _, ledger => ([], ledger)

def takeObserved (world : World V J) (index : Nat) : Option (Erased V) × World V J :=
  match world.slot index with
  | some value =>
    (some value, world.onChain index fun chain =>
      { chain with observed := none, committed := { chain.committed with state := .admitted } })
  | none => (none, world)

def resume (world : World V J) (index : Nat) (chain : EcsChain (Erased V)) :
    Admit → Option (Transition (Erased V)) → Option (Transition (Erased V)) × World V J
  | .keep, held => (held, world)
  | .bind input, some previous =>
    let taken := world.takeObserved index
    (some (.resumed input (taken.2.revisionOf index) previous taken.1), taken.2)
  | .bind input, none =>
    let taken := world.takeObserved index
    (some (.opened input (taken.2.revisionOf index) chain.entries.length taken.1), taken.2)

/-- Keep a transition that has work or a fact to report; hand the value of another back. -/
def place (world : World V J) (index : Nat) (transition : Transition (Erased V)) : World V J :=
  if transition.isRetained then { world with ledger := world.ledger.put index (some transition) }
  else
    { world with ledger := world.ledger.put index none }.onChain index fun chain =>
      { chain with observed := chain.observed.or transition.value }

section Decide

variable [Hashing] (check : WorkId → Erased V → Except BotError Bool)

def walk (world : World V J) (index : Nat) (chain : EcsChain (Erased V))
    (transition : Transition (Erased V)) : World V J :=
  let walked := EcsBot.walkOf check world.ledger world.retry transition index chain
  { world with
    plan.steps := world.plan.steps ++ walked.1
    plan.failures := world.plan.failures ++ (walked.2.map fun error => (index, error)).toList }

def fireChain (world : World V J) (index : Nat) (chain : EcsChain (Erased V)) (kind : AdmitKind)
    (input : Option AdmittedInput) : World V J :=
  if kind = .idle then world
  else
    let held := world.ledger.transition index
    let taken := { world with ledger := world.ledger.put index none }
    let resumed := taken.resume index chain (kind.binding input) held
    match resumed.1 with
    | none => resumed.2
    | some transition => (resumed.2.walk check index chain transition).place index transition

def fireChains : Nat → List (EcsChain (Erased V)) → List AdmitKind →
    List (Option AdmittedInput) → World V J → World V J
  | index, chain :: chains, kind :: kinds, input :: inputs, world =>
    fireChains (index + 1) chains kinds inputs (world.fireChain check index chain kind input)
  | _, _, _, _, world => world

def decideAll (world : World V J) : World V J :=
  let kinds := world.planAdmissions world.moving
  let minted := mintInputs kinds (world.deriveInputs kinds) world.ledger
  fireChains check 0 world.chains kinds minted.1
    { world with ledger := minted.2, movers := true }

def firePlan (world : World V J) : World V J :=
  (if world.seen.parked || world.quietTick then world.clearPlan
    else world.clearPlan.decideAll check).ran

def fireFully (world : World V J) : World V J :=
  (if world.seen.parked then world.clearPlan else world.clearPlan.decideAll check).ran

/-- Phase two of a tick: the quiet tick settled in place, or the schedule run. -/
def decide (world : World V J) : World V J :=
  world.settleQuietTick.getD (world.observeFold.firePlan check)

def decideFully (world : World V J) : World V J := world.observeFold.fireFully check

end Decide

/-- One tick: what the settled runs leave, what the polls answer, what is published of them, the
conditions, and what the effects of the plan leave. -/
structure Round (V J : Type) where
  settled : SharedWorld V J → SharedWorld V J
  polled : List (PollAnswer V)
  revisions : List (Option UInt64)
  published : SharedWorld V J → SharedWorld V J
  check : WorkId → Erased V → Except BotError Bool
  act : SharedWorld V J → SharedWorld V J

/-- A tick, or anything that happens between two of them: a tick dropped or failed before it
decides counts here. -/
inductive Event (V J : Type) where
  | outside (change : SharedWorld V J → SharedWorld V J)
  | tick (round : Round V J)

def staged (round : Round V J) : World V J → World V J :=
  outside fun shared =>
    let begun := round.settled { shared with seen := shared.seen.beginTick }
    round.published { begun with seen := begun.seen.stage round.polled round.revisions }

section Run

variable (phase : (WorkId → Erased V → Except BotError Bool) → World V J → World V J)

def step (world : World V J) : Event V J → World V J
  | .outside change => world.outside change
  | .tick round => (phase round.check (world.staged round)).outside round.act

def run (world : World V J) (events : List (Event V J)) : World V J :=
  events.foldl (step phase) world

end Run

/-- Nothing is written that `fire_plan` has not seen, once the query is built. -/
def Consumed (world : World V J) : Prop := world.movers = true → ∀ flag ∈ world.written, flag = false

variable {world : World V J}

theorem consumed_assemble (shared : SharedWorld V J) : (assemble shared).Consumed := by
  intro hmovers
  cases hmovers

theorem Consumed.outside (h : world.Consumed) (change : SharedWorld V J → SharedWorld V J) :
    (world.outside change).Consumed := h

theorem Consumed.staged (h : world.Consumed) (round : Round V J) : (world.staged round).Consumed := h

theorem consumed_ran (world : World V J) : world.ran.Consumed := by
  intro _ flag hflag
  obtain ⟨_, -, rfl⟩ := List.mem_map.mp hflag
  rfl

theorem ran_of_unwritten (h : ∀ flag ∈ world.written, flag = false) : world.ran = world := by
  have hmap : (world.written.map fun _ => false) = world.written := by
    calc (world.written.map fun _ => false)
        = world.written.map id := List.map_congr_left fun flag hflag => (h flag hflag).symm
      _ = world.written := List.map_id _
  unfold ran
  rw [hmap]

/-! A chain the fold bumped is a chain it flagged. -/

section Flags

variable {seen : ObservedWorld V} {polled : List (PollAnswer V)} {index : Nat}

theorem chains_ne_of_bumped {before after : ObservedWorld V} (h : bumped before after index = true) :
    after.chains ≠ before.chains := by
  rintro hchains
  simp [bumped, hchains] at h

theorem flagged_commitAll (before : ObservedWorld V) (hchains : seen.chains = before.chains)
    (h : bumped before (seen.commitAll polled) index = true) :
    true ∈ (seen.commitAll polled).moved := by
  unfold bumped at h
  rw [decide_eq_true_eq] at h
  cases hanswer : ObservedWorld.answered polled index with
  | none =>
    exfalso
    apply h
    simp only [ObservedWorld.commitAll, List.getElem?_mapIdx, hanswer, hchains]
    cases before.chains[index]? <;> rfl
  | some value =>
    have hpolled : index < polled.length := by
      by_contra hout
      rw [ObservedWorld.answered, List.getElem?_eq_none (Nat.le_of_not_lt hout)] at hanswer
      cases hanswer
    have hchain : index < seen.chains.length := by
      by_contra hout
      apply h
      have hnone : seen.chains[index]? = none := List.getElem?_eq_none (Nat.le_of_not_lt hout)
      simp only [ObservedWorld.commitAll, List.getElem?_mapIdx, ← hchains, hnone, Option.map_none]
    refine List.mem_map.mpr ⟨index, List.mem_range.mpr hpolled, ?_⟩
    simp [hanswer, hchain]

theorem flagged_rendezvous (before : ObservedWorld V) (hchains : seen.chains = before.chains)
    (h : bumped before (seen.rendezvous polled) index = true) :
    true ∈ (seen.rendezvous polled).moved := by
  unfold ObservedWorld.rendezvous at h ⊢
  split at h
  · exact (chains_ne_of_bumped h hchains).elim
  · exact flagged_commitAll before hchains h

theorem flagged_observeFold (h : bumped seen seen.observeFold index = true) :
    true ∈ seen.observeFold.moved := by
  unfold ObservedWorld.observeFold at h ⊢
  split at h
  · exact (chains_ne_of_bumped h rfl).elim
  · split at h
    · exact (chains_ne_of_bumped h rfl).elim
    · rename_i hparked hsome
      rw [if_neg hparked, if_neg hsome]
      dsimp only at h ⊢
      split at h
      · exact flagged_rendezvous seen rfl h
      · exact (chains_ne_of_bumped h rfl).elim
      · exact flagged_rendezvous seen rfl h

end Flags

theorem unwritten_of_quietTick (h : world.Consumed) (hquiet : world.observeFold.quietTick = true) :
    ∀ flag ∈ world.observeFold.written, flag = false := by
  simp only [quietTick, Bool.and_eq_true, Bool.not_eq_true'] at hquiet
  obtain ⟨⟨hmovers, hmoved⟩, -⟩ := hquiet
  intro flag hflag
  obtain ⟨index, hindex, rfl⟩ := List.mem_mapIdx.mp hflag
  rw [h hmovers _ (List.getElem_mem _), Bool.false_or]
  by_contra hbumped
  have hflagged := flagged_observeFold (Bool.not_eq_false _ ▸ hbumped)
  have hany : world.observeFold.seen.moved.any id = true := List.any_eq_true.mpr ⟨true, hflagged, rfl⟩
  rw [hmoved] at hany
  cases hany

/-! Where nothing was written and no transition is held, the pass decides nothing. -/

section Idle

variable (hheld : world.noTransitionHeld = true)
include hheld

theorem transition_eq_none (index : Nat) : world.ledger.transition index = none := by
  unfold Ledger.transition
  cases hslot : world.ledger.transitions[index]? with
  | none => rfl
  | some slot =>
    have hnone := List.all_eq_true.mp hheld slot (List.mem_of_getElem? hslot)
    rw [Option.isNone_iff_eq_none.mp hnone]
    rfl

variable (hwritten : ∀ flag ∈ world.written, flag = false)
include hwritten

theorem planAdmissions_idle : ∀ kind ∈ world.planAdmissions world.moving, kind = .idle := by
  intro kind hkind
  obtain ⟨index, hindex, rfl⟩ := List.mem_mapIdx.mp hkind
  have hmoving : (world.moving[index]? = some true) = False := by
    rw [eq_iff_iff, iff_false]
    intro hflag
    rw [moving, List.getElem?_mapIdx, List.getElem?_eq_getElem hindex, Option.map_some,
      Option.some_inj] at hflag
    cases hwas : world.written[index]? with
    | none =>
      rw [hwas] at hflag
      cases hflag
    | some flag =>
      rw [hwas, hwritten flag (List.mem_of_getElem? hwas)] at hflag
      cases hflag
  unfold kindOf
  rw [transition_eq_none hheld]
  simp [hmoving]

end Idle

theorem mintInputs_idle [Hashing] {kinds : List AdmitKind} (h : ∀ kind ∈ kinds, kind = .idle)
    (inputs : List (Option AdmittedInput)) (ledger : Ledger (Erased V) J) :
    (mintInputs kinds inputs ledger).2 = ledger := by
  induction kinds generalizing inputs with
  | nil => rfl
  | cons kind kinds ih =>
    cases inputs with
    | nil => rfl
    | cons input inputs =>
      cases h kind List.mem_cons_self
      exact ih (fun other hother => h other (List.mem_cons_of_mem _ hother)) inputs

variable {check : WorkId → Erased V → Except BotError Bool}

theorem fireChains_idle {kinds : List AdmitKind} (h : ∀ kind ∈ kinds, kind = .idle) (index : Nat)
    (chains : List (EcsChain (Erased V))) (inputs : List (Option AdmittedInput)) :
    world.fireChains check index chains kinds inputs = world := by
  induction kinds generalizing index chains inputs with
  | nil => cases chains <;> rfl
  | cons kind kinds ih =>
    cases chains with
    | nil => rfl
    | cons chain chains =>
      cases inputs with
      | nil => rfl
      | cons input inputs =>
        cases h kind List.mem_cons_self
        exact ih (fun other hother => h other (List.mem_cons_of_mem _ hother)) (index + 1) chains inputs

theorem observeFold_unpolled (hparked : world.seen.parked = false)
    (hempty : world.seen.polled.isEmpty = true) :
    world.observeFold = { world with seen := world.seen.clearMoved } := by
  have hseen : world.seen.observeFold = world.seen.clearMoved := by
    unfold ObservedWorld.observeFold
    rw [hparked, hempty]
    rfl
  have hsame (index : Nat) : bumped world.seen world.seen.clearMoved index = false := by
    simp [bumped, ObservedWorld.clearMoved]
  have hwritten : (world.written.mapIdx fun index written =>
      written || bumped world.seen world.seen.clearMoved index) = world.written := by
    apply List.ext_getElem?
    intro index
    rw [List.getElem?_mapIdx, hsame]
    simp
  unfold observeFold
  rw [hseen, hwritten]

variable [Hashing]

theorem decideAll_idle (hmovers : world.movers = true) (hheld : world.noTransitionHeld = true)
    (hwritten : ∀ flag ∈ world.written, flag = false) : world.decideAll check = world := by
  have hidle := planAdmissions_idle hheld hwritten
  unfold decideAll
  dsimp only
  rw [fireChains_idle hidle, mintInputs_idle hidle, ← hmovers]

theorem firePlan_quiet (hquiet : world.quietTick = true)
    (hwritten : ∀ flag ∈ world.written, flag = false) : world.firePlan check = world.clearPlan := by
  unfold firePlan
  rw [hquiet, Bool.or_true, if_pos rfl]
  exact ran_of_unwritten hwritten

theorem fireFully_quiet (hquiet : world.quietTick = true)
    (hwritten : ∀ flag ∈ world.written, flag = false) : world.fireFully check = world.clearPlan := by
  have hfacts := hquiet
  simp only [quietTick, Bool.and_eq_true] at hfacts
  obtain ⟨⟨hmovers, -⟩, hheld⟩ := hfacts
  have hpass : world.clearPlan.decideAll check = world.clearPlan :=
    decideAll_idle hmovers hheld hwritten
  unfold fireFully
  rw [hpass, ite_self]
  exact ran_of_unwritten hwritten

theorem firePlan_eq_fireFully (h : world.Consumed) :
    world.observeFold.firePlan check = world.observeFold.fireFully check := by
  cases hquiet : world.observeFold.quietTick with
  | true =>
    have hwritten := unwritten_of_quietTick h hquiet
    rw [firePlan_quiet hquiet hwritten, fireFully_quiet hquiet hwritten]
  | false =>
    unfold firePlan fireFully
    rw [hquiet, Bool.or_false]

theorem settleQuietTick_eq (h : world.Consumed) {settled : World V J}
    (hsettled : world.settleQuietTick = some settled) :
    settled = world.observeFold.firePlan check := by
  unfold settleQuietTick at hsettled
  split at hsettled
  · rename_i hguard
    cases hsettled
    simp only [Bool.and_eq_true, Bool.not_eq_true'] at hguard
    obtain ⟨⟨⟨hparked, hempty⟩, hmovers⟩, hheld⟩ := hguard
    have hfold := observeFold_unpolled hparked hempty
    have hstill : world.seen.clearMoved.moved.any id = false := by
      simp [ObservedWorld.clearMoved]
    have hquiet : world.observeFold.quietTick = true := by
      rw [hfold]
      change (world.movers && !world.seen.clearMoved.moved.any id && world.noTransitionHeld) = true
      rw [hmovers, hstill, hheld]
      rfl
    rw [firePlan_quiet hquiet (unwritten_of_quietTick h hquiet), hfold]
    rfl
  · cases hsettled

theorem decide_eq_decideFully (h : world.Consumed) :
    world.decide check = world.decideFully check := by
  unfold decide decideFully
  cases hsettled : world.settleQuietTick with
  | none => exact firePlan_eq_fireFully h
  | some settled => exact (settleQuietTick_eq h hsettled).trans (firePlan_eq_fireFully h)

theorem consumed_decideFully (world : World V J) : (world.decideFully check).Consumed :=
  consumed_ran _

theorem step_eq_stepFully (h : world.Consumed) (event : Event V J) :
    world.step decide event = world.step decideFully event := by
  cases event with
  | outside change => rfl
  | tick round => exact congrArg (outside round.act) (decide_eq_decideFully (h.staged round))

theorem consumed_step (h : world.Consumed) (event : Event V J) :
    (world.step decide event).Consumed := by
  rw [step_eq_stepFully h]
  cases event with
  | outside change => exact h.outside change
  | tick round => exact (consumed_decideFully _).outside round.act

theorem consumed_run (h : world.Consumed) (events : List (Event V J)) :
    (world.run decide events).Consumed := by
  induction events generalizing world with
  | nil => exact h
  | cons event events ih => exact ih (consumed_step h event)

theorem run_eq_runFully (h : world.Consumed) (events : List (Event V J)) :
    world.run decide events = world.run decideFully events := by
  induction events generalizing world with
  | nil => rfl
  | cons event events ih =>
    calc world.run decide (event :: events)
        = (world.step decide event).run decide events := rfl
      _ = (world.step decide event).run decideFully events := ih (consumed_step h event)
      _ = (world.step decideFully event).run decideFully events := by rw [step_eq_stepFully h]
      _ = world.run decideFully (event :: events) := rfl

/-- The world phase two of a tick starts on, after a bot's run so far. -/
def reached (shared : SharedWorld V J) (events : List (Event V J)) (round : Round V J) :
    World V J :=
  ((assemble shared).run decide events).staged round

/-- In every world a bot reaches, the shortcut leaves what the fold and the plan leave, every run
from there is the run of a bot with neither shortcut, and the early return of the plan is taken only
where the full pass leaves an empty plan and changes nothing else. -/
theorem quiet_tick_changes_nothing (shared : SharedWorld V J) (events : List (Event V J))
    (round : Round V J) :
    (∀ settled, (reached shared events round).settleQuietTick = some settled →
      settled = (reached shared events round).observeFold.firePlan round.check ∧
        ∀ later : List (Event V J), settled.run decide later =
          ((reached shared events round).decideFully round.check).run decideFully later) ∧
    ((reached shared events round).observeFold.quietTick = true →
      (reached shared events round).observeFold.fireFully round.check =
        (reached shared events round).observeFold.clearPlan) := by
  have hround : (reached shared events round).Consumed :=
    (consumed_run (consumed_assemble shared) events).staged round
  constructor
  · intro settled hsettled
    have hplan := @settleQuietTick_eq _ _ _ round.check _ hround _ hsettled
    have hfull : settled = (reached shared events round).decideFully round.check :=
      hplan.trans (firePlan_eq_fireFully hround)
    constructor
    · exact hplan
    · intro later
      rw [hfull]
      exact run_eq_runFully (consumed_decideFully _) later
  · intro hquiet
    exact fireFully_quiet hquiet (unwritten_of_quietTick hround hquiet)

end World
end LogicalWorks.Ecs
