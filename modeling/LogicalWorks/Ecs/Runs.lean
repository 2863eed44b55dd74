import LogicalWorks.Ecs.Bot

/-! Assembly: a bot over a journal, with everything the journal records folded in. -/
namespace LogicalWorks.Ecs
open Journal (EffectKey EffectEvidence EffectEvent ActionId Attempt)

namespace EcsBot

variable {V J : Type} [EffectJournal J]

def declaredActions [Hashing] (name : String) (chains : List (EcsChain V)) :
    List (List ActionId) :=
  chains.mapIdx fun chain held =>
    held.entries.mapIdx fun entry declared => Hashing.actionId name chain entry declared.domain

def holdUnconfirmed (key : EffectKey) (evidence : EffectEvidence) :
    Call (Ledger V J) BotError Bool := do
  match ← Call.attempt (Ledger.onEffects (Effects.confirmRecordedOutcome key evidence)) with
  | .ok _ => pure false
  | .error cause => do
      Ledger.onEffects (Call.change fun effects =>
        { effects with recording := effects.recording ++ [⟨key, evidence, cause⟩] })
      pure true

def foldAttempt (attempt : Attempt) : Call (Ledger V J) BotError Unit := do
  let ledger ← Call.read id
  Call.refuseIf (ledger.locate attempt.key.action = none)
    (.actionNotDeclared attempt.key.action)
  Call.refuseIf (ledger.speaksFor attempt.key = false) (.actionNotDeclared attempt.key.action)
  Ledger.onEffects (Call.change fun effects =>
    effects.noteJournalAttempt attempt.key.action attempt.key.attempt)
  match attempt.status with
  | .outcomeUnknown =>
    Ledger.onEffects (Call.change fun effects =>
      { effects with unsettled := effects.unsettled ++ [attempt.key] })
  | .applied | .verified | .verificationFailed => do
      -- An ephemeral journal's readback is confirmed without a receipt.
      let held ← holdUnconfirmed attempt.key .applied
      if held then pure ()
      else Ledger.onEffects (Call.change fun effects => effects.noteApplied attempt.key)
  | .prepared => pure ()
  | .notApplied => do
      let _ ← holdUnconfirmed attempt.key .notApplied
      pure ()

def foldAttempts : List Attempt → Call (Ledger V J) BotError Unit
  | [] => pure ()
  | attempt :: rest => do
      foldAttempt attempt
      foldAttempts rest

def idle (chains : List (EcsChain V)) (policy : RetryPolicy) (clock : Nat)
    (ledger : Ledger V J) : EcsBot V J where
  chains := chains
  policy := policy
  now := clock
  cadences := .new (chains.map EcsChain.cadence)
  ledger := ledger
  observed := chains.map fun _ => none
  revisions := chains.map fun _ => 0
  history := []

def freshLedger [Hashing] (name : String) (chains : List (EcsChain V)) (scope : EffectScope J) :
    Ledger V J :=
  let tail := EffectJournal.tail scope.journal
  .new (declaredActions name chains) (.new scope tail)
    (min (tail.sequence.toNat + 1) (2 ^ 64 - 1))

def recovered [Hashing] (name : String) (chains : List (EcsChain V)) :
    Call (EffectScope J) BotError (Ledger V J) := fun scope =>
  match EffectJournal.committed scope.journal with
  | (.error cause, journal) => (.error (.effectRefused (.journal cause)), { scope with journal })
  | (.ok committed, journal) =>
    let ledger := freshLedger name chains { scope with journal }
    let sequence := (EffectJournal.tail journal).sequence.toNat
    if committed.length ≠ sequence then
      (.error (.effectRefused (.journal (.snapshotStale committed.length sequence))),
        { scope with journal })
    else
      match foldAttempts (Journal.recover committed).attempts ledger with
      | (.error error, folded) => (.error error, folded.effects.scope)
      | (.ok _, folded) => (.ok folded, folded.effects.scope)

def assemble [Hashing] (name : String) (chains : List (EcsChain V)) (policy : RetryPolicy)
    (clock : Nat) : Call (EffectScope J) BotError (EcsBot V J) := do
  Call.refuseIf (name = "") (.refusal "the bot was given an empty name")
  let ledger ← recovered name chains
  Call.refuseIf (Cadence.every 0 ∈ chains.map EcsChain.cadence)
    (.refusal "a source declared Every with a zero period")
  pure (idle chains policy clock ledger)

end EcsBot

end LogicalWorks.Ecs

/-! The runs of a bot, and the moves one tick of it is made of.  A tick that is dropped has
made the moves up to its drop, so what every move keeps every tick keeps. -/
namespace LogicalWorks.Ecs
open Journal (EffectKey EffectEvidence)

inductive BotAction (V : Type) where
  | tick (input : TickInput V)
  | wake (chain : Nat)
  | resolve (key : EffectKey) (evidence : EffectEvidence)

namespace EcsBot

variable {V J : Type}

structure Same (before after : EcsBot V J) : Prop where
  chains_eq : after.chains = before.chains
  reading_eq : after.reading = before.reading
  cadences_eq : after.cadences = before.cadences
  observed_eq : after.observed = before.observed
  grown : before.history <+: after.history

theorem Same.refl (bot : EcsBot V J) : Same bot bot := ⟨rfl, rfl, rfl, rfl, List.prefix_rfl⟩

theorem Same.trans {first second third : EcsBot V J} (h : Same first second)
    (hrest : Same second third) : Same first third :=
  ⟨hrest.chains_eq.trans h.chains_eq, hrest.reading_eq.trans h.reading_eq,
    hrest.cadences_eq.trans h.cadences_eq, hrest.observed_eq.trans h.observed_eq,
    h.grown.trans hrest.grown⟩

theorem Same.of_path {before after : EcsBot V J}
    (path : Relation.ReflTransGen Same before after) : Same before after := by
  induction path with
  | refl => exact .refl _
  | tail _ last ih => exact ih.trans last

theorem same_note (bot : EcsBot V J) (happening : Happening J) : Same bot (bot.note happening) :=
  ⟨rfl, rfl, rfl, rfl, List.prefix_append _ _⟩

theorem same_ledger (bot : EcsBot V J) (ledger : Ledger V J) :
    Same bot { bot with ledger := ledger } :=
  ⟨rfl, rfl, rfl, rfl, List.prefix_rfl⟩

theorem same_write (bot : EcsBot V J) (work : WorkId) (f : Ledger V J → Ledger V J) :
    Same bot (bot.write work f) := by
  unfold write
  split
  · split
    · exact same_ledger bot _
    · exact (same_ledger bot _).trans (same_note _ _)
  · exact same_ledger bot _

theorem Same.path {before after : EcsBot V J} (h : Same before after) :
    Relation.ReflTransGen Same before after ∧ True :=
  ⟨.single h, trivial⟩

theorem leads_now {ε α : Type} {call : EcsBot V J → α × EcsBot V J}
    (h : ∀ bot, Same bot (call bot).2) :
    Polled.Leads (fun _ => True) Same (Polled.now call : Call (Polled (EcsBot V J)) ε α) :=
  .now fun bot _ => (h bot).path

theorem leads_write {ε α : Type} (answer : EcsBot V J → α) (work : WorkId)
    (f : Ledger V J → Ledger V J) :
    Polled.Leads (fun _ => True) Same
      (Polled.now fun bot => (answer bot, bot.write work f) : Call (Polled (EcsBot V J)) ε α) :=
  leads_now fun bot => same_write bot work f

structure Declared (before after : EcsBot V J) : Prop where
  chains_eq : after.chains = before.chains
  reading_eq : after.reading = before.reading
  cadences_eq : after.cadences = before.cadences
  observed_length : after.observed.length = before.observed.length
  grown : before.history <+: after.history

theorem Same.declared {before after : EcsBot V J} (h : Same before after) : Declared before after :=
  ⟨h.chains_eq, h.reading_eq, h.cadences_eq, congrArg List.length h.observed_eq, h.grown⟩

theorem declared_admittedInput [Hashing] (bot : EcsBot V J) (chain : EcsChain V) (index : Nat) :
    Declared bot (bot.admittedInput chain index).2 := by
  unfold admittedInput
  split
  · exact (Same.refl bot).declared
  · exact (same_ledger bot _).declared

theorem Declared.taken {before after : EcsBot V J} (h : Declared before after) (index : Nat)
    (happening : Happening J) : Declared before ((after.takeObserved index).2.note happening) :=
  ⟨h.chains_eq, h.reading_eq, h.cadences_eq, List.length_set.trans h.observed_length,
    h.grown.trans (List.prefix_append _ _)⟩

theorem declared_resume [Hashing] (bot : EcsBot V J) (chain : EcsChain V) (index : Nat)
    (kind : AdmitKind) : Declared bot (bot.resume chain index kind).2 := by
  unfold resume
  dsimp only
  split
  · exact (bot.declared_admittedInput chain index).taken index _
  · exact (bot.declared_admittedInput chain index).taken index _
  · exact (Same.refl bot).declared
  · exact (Same.refl bot).declared

theorem Declared.placed {before after : EcsBot V J} (h : Declared before after) (index : Nat)
    (transition : Transition V) : Declared before (after.place index transition) := by
  unfold place
  split
  · exact ⟨h.chains_eq, h.reading_eq, h.cadences_eq, h.observed_length, h.grown⟩
  · exact ⟨h.chains_eq, h.reading_eq, h.cadences_eq,
      (List.length_modify _ _ _).trans h.observed_length, h.grown⟩

theorem declared_fireChain [Hashing] (input : TickInput V) (moving : Bool) (index : Nat)
    (chain : EcsChain V) (bot : EcsBot V J) :
    Declared bot (bot.fireChain input moving index chain).2 := by
  unfold fireChain
  have hresume := bot.declared_resume chain index (bot.admitKind chain index moving)
  dsimp only
  split
  · exact hresume
  · exact hresume.placed index _

variable [EffectJournal J]

def wake (bot : EcsBot V J) (chain : Nat) : EcsBot V J :=
  { bot with cadences := bot.cadences.wake chain }

def after [Hashing] (bot : EcsBot V J) : BotAction V → EcsBot V J
  | .tick input => bot.ticked input
  | .wake chain => bot.wake chain
  | .resolve key evidence => (resolveEffect key evidence bot).2

def Assembled [Hashing] (bot : EcsBot V J) : Prop :=
  ∃ name chains policy clock scope left,
    assemble name chains policy clock scope = (.ok bot, left)

def Reachable [Hashing] (bot : EcsBot V J) : Prop :=
  ∃ start actions, Assembled start ∧ bot = List.foldl after start actions

inductive Move [Hashing] (input : TickInput V) : EcsBot V J → EcsBot V J → Prop where
  | clocked (bot : EcsBot V J) : Move input bot { bot with now := input.clock }
  | woken (bot : EcsBot V J) : Move input bot { bot with cadences := bot.cadences.takeWakes.2 }
  | asked (bot : EcsBot V J) (chain : Nat) (woken : List Bool) :
      Move input bot { bot with cadences := (bot.cadences.pollDue chain bot.now woken).2 }
  | polled (bot : EcsBot V J) (chain : Nat) : Move input bot (bot.note (.polled chain))
  | committed (bot : EcsBot V J) (polled : List Nat) : Move input bot (commit input polled bot)
  | fired (bot : EcsBot V J) (moving : Bool) (index : Nat) (chain : EcsChain V)
      (declared : bot.chains[index]? = some chain) :
      Move input bot (bot.fireChain input moving index chain).2
  | skipped (bot : EcsBot V J) (work : WorkId) :
      Move input bot (bot.write work fun ledger => ledger.skip work)
  | expired (bot : EcsBot V J) (work : WorkId)
      (due : (bot.ledger.expireRetry work bot.reading).1 = true) :
      Move input bot (bot.write work fun ledger => (ledger.expireRetry work bot.reading).2)
  | retried (bot : EcsBot V J) (patience : Option Nat) (work : WorkId) (key : EffectKey)
      (evidence : EffectEvidence) (attempts : Nat)
      (held : bot.ledger.recordingFailed work = some (key, evidence, attempts)) :
      Move input bot
        (retryRecording bot.reading work key evidence attempts ⟨patience, bot⟩).2.state
  | attempted (bot : EcsBot V J) (patience : Option Nat) (work : WorkId)
      (unheld : bot.ledger.recordingFailed work = none) :
      Move input bot (attemptStep input bot.reading work ⟨patience, bot⟩).2.state

def MovesTo [Hashing] (input : TickInput V) : EcsBot V J → EcsBot V J → Prop :=
  Relation.ReflTransGen (Move input)

variable {input : TickInput V} {retry : RetryReading}

theorem MovesTo.keeps [Hashing] {I : EcsBot V J → Prop} {bot next : EcsBot V J} (path : MovesTo input bot next)
    (hmove : ∀ bot next, I bot → Move input bot next → I next) (hbot : I bot) : I next := by
  induction path with
  | refl => exact hbot
  | tail _ last ih => exact hmove _ _ ih last

theorem retryRecording_same (work : WorkId) (key : EffectKey) (evidence : EffectEvidence)
    (attempts : Nat) (polled : Polled (EcsBot V J)) :
    Same (polled.state.note (.retriedAppend work key))
      (retryRecording retry work key evidence attempts polled).2.state := by
  unfold retryRecording
  rw [Polled.now_bind]
  refine Same.of_path (Polled.Leads.bind (P := fun _ => True)
    (.caught (.sync fun bot _ => (same_ledger bot _).path)) (fun answer => ?_)
    ⟨polled.patience, polled.state.note (.retriedAppend work key)⟩ trivial).1
  cases answer with
  | ok _ => exact leads_write _ work _
  | error _ => exact leads_write _ work _

theorem recordAnswer_leads (work : WorkId) (key : EffectKey) (outcome : Except BotError Unit) :
    Polled.Leads (fun _ => True) Same
      (recordAnswer retry work key outcome : Call (Polled (EcsBot V J)) _ _) := by
  unfold recordAnswer
  refine .bind ?_ fun recorded => ?_
  · unfold recordObserved
    cases observedOf outcome with
    | none => exact .pure _
    | some evidence =>
      exact .caught (.rename _ (.sync fun bot _ => (same_ledger bot _).path))
  · cases recorded with
    | error _ => exact leads_write _ work _
    | ok _ =>
      cases outcome with
      | ok _ => exact leads_write _ work _
      | error _ => exact leads_write _ work _

theorem enter_leads (work : WorkId) (key : EffectKey) :
    Polled.Leads (fun _ => True) Same
      (enter input retry work key : Call (Polled (EcsBot V J)) _ _) := by
  unfold enter
  refine .bind (leads_now fun bot => .refl bot) fun bot => ?_
  split
  · refine .bind (.awaitNow fun bot _ => (same_note bot _).path) fun outcome => ?_
    exact recordAnswer_leads work _ outcome
  · exact .pure _

theorem handOver_leads (work : WorkId) (key : EffectKey) (authority : Authority) :
    Polled.Leads (fun _ => True) Same
      (handOver input retry work key authority : Call (Polled (EcsBot V J)) _ _) := by
  unfold handOver
  refine .bind (leads_now fun bot => .refl bot) fun valid => ?_
  cases valid with
  | error _ => exact leads_write _ work _
  | ok _ => exact enter_leads work key

theorem attemptStep_same [Hashing] (work : WorkId) (polled : Polled (EcsBot V J)) :
    Same (polled.state.note (.attempted work))
      (attemptStep input retry work polled).2.state := by
  unfold attemptStep
  rw [Polled.now_bind]
  refine Same.of_path (Polled.Leads.bind (P := fun _ => True)
    (.caught (.within fun bot ledger _ => (same_ledger bot _).path)) (fun began => ?_)
    ⟨polled.patience, polled.state.note (.attempted work)⟩ trivial).1
  cases began with
  | error _ => exact .pure _
  | ok warrant =>
    exact .bind (leads_now fun bot => same_note bot _) fun _ => handOver_leads work _ _

section Walk

variable [Hashing]

def Walks (input : TickInput V) (retry : RetryReading) {ε α : Type}
    (call : Call (Polled (EcsBot V J)) ε α) : Prop :=
  Polled.Leads (fun bot => bot.reading = retry) (Move input) call

theorem runStep_walks (step : Step) :
    Walks input retry (runStep input retry step : Call (Polled (EcsBot V J)) _ _) := by
  intro polled hreading
  unfold runStep
  rw [Polled.now_bind]
  dsimp only
  cases step.decision with
  | skip =>
    dsimp only
    split
    · exact ⟨.refl, hreading⟩
    · exact ⟨.single (.skipped polled.state step.work),
        (same_write _ _ _).reading_eq.trans hreading⟩
  | attempt =>
    dsimp only
    cases hheld : polled.state.ledger.recordingFailed step.work with
    | some held =>
      obtain ⟨key, evidence, attempts⟩ := held
      refine ⟨.single ?_, ?_⟩
      · rw [← hreading]
        exact .retried polled.state polled.patience step.work key evidence attempts hheld
      · exact (retryRecording_same step.work key evidence attempts polled).reading_eq.trans hreading
    | none =>
      dsimp only
      split
      · exact ⟨.single (.skipped polled.state step.work),
          (same_write _ _ _).reading_eq.trans hreading⟩
      · split
        · exact ⟨.refl, hreading⟩
        · split
          · rename_i hexpired
            refine ⟨.single ?_, (same_write _ _ _).reading_eq.trans hreading⟩
            rw [← hreading] at hexpired ⊢
            exact .expired polled.state step.work hexpired
          · refine ⟨.single ?_, ?_⟩
            · rw [← hreading]
              exact .attempted polled.state polled.patience step.work hheld
            · exact (attemptStep_same step.work polled).reading_eq.trans hreading

theorem runChain_walks (steps : List Step) :
    Walks input retry (runChain input retry steps : Call (Polled (EcsBot V J)) _ _) := by
  induction steps with
  | nil => exact .pure _
  | cons step rest ih =>
    unfold runChain
    refine .bind (runStep_walks step) fun ended => ?_
    cases ended with
    | stop failure => exact .pure _
    | goOn fired => exact .bind ih fun others => .pure _

theorem runSteps_walks (plan : List ChainPlan) :
    Walks input retry (runSteps input retry plan : Call (Polled (EcsBot V J)) _ _) := by
  induction plan with
  | nil => exact .pure _
  | cons row rest ih =>
    unfold runSteps
    exact .bind (runChain_walks row.steps) fun own => .bind ih fun others => .pure _

theorem Move.grown {bot next : EcsBot V J} (move : Move input bot next) :
    next.chains = bot.chains ∧ bot.history <+: next.history := by
  cases move with
  | clocked => exact ⟨rfl, List.prefix_rfl⟩
  | woken => exact ⟨rfl, List.prefix_rfl⟩
  | asked chain woken => exact ⟨rfl, List.prefix_rfl⟩
  | polled chain => exact ⟨rfl, List.prefix_append _ _⟩
  | committed polled => exact ⟨rfl, List.prefix_rfl⟩
  | fired moving index chain declared =>
    have hfired := declared_fireChain input moving index chain bot
    exact ⟨hfired.chains_eq, hfired.grown⟩
  | skipped work =>
    have hsame := same_write bot work fun ledger => ledger.skip work
    exact ⟨hsame.chains_eq, hsame.grown⟩
  | expired work due =>
    have hsame := same_write bot work fun ledger => (ledger.expireRetry work bot.reading).2
    exact ⟨hsame.chains_eq, hsame.grown⟩
  | retried patience work key evidence attempts held =>
    have hsame := (same_note bot _).trans
      (@retryRecording_same V J _ bot.reading work key evidence attempts ⟨patience, bot⟩)
    exact ⟨hsame.chains_eq, hsame.grown⟩
  | attempted patience work unheld =>
    have hsame := (same_note bot _).trans
      (@attemptStep_same V J _ input bot.reading _ work ⟨patience, bot⟩)
    exact ⟨hsame.chains_eq, hsame.grown⟩

theorem MovesTo.grown {bot next : EcsBot V J} (path : MovesTo input bot next) :
    next.chains = bot.chains ∧ bot.history <+: next.history := by
  induction path with
  | refl => exact ⟨rfl, List.prefix_rfl⟩
  | tail _ last ih =>
    exact ⟨last.grown.1.trans ih.1, ih.2.trans last.grown.2⟩

end Walk

section Tick

variable [Hashing]

theorem dueIn_moves (woken : List Bool) (chains : List Nat) (bot : EcsBot V J) :
    MovesTo input bot (dueIn input woken bot chains).2 := by
  induction chains generalizing bot with
  | nil => exact .refl
  | cons chain rest ih =>
    unfold dueIn
    have hasked : MovesTo input bot
        { bot with cadences := (bot.cadences.pollDue chain bot.now woken).2 } :=
      .single (.asked bot chain woken)
    dsimp only
    split
    · exact (hasked.tail (.polled _ chain)).trans (ih _)
    · exact hasked.trans (ih _)

theorem pollWaves_moves (woken : List Bool) (waves : List (List Nat)) :
    Polled.Leads (fun _ => True) (Move input)
      (pollWaves input woken waves : Call (Polled (EcsBot V J)) _ _) := by
  induction waves with
  | nil => exact .pure _
  | cons wave rest ih =>
    unfold pollWaves
    refine .bind (.now fun bot _ => ⟨dueIn_moves woken wave bot, trivial⟩) fun polled => ?_
    split
    · exact ih
    · exact .bind (.awaitNow fun bot _ => ⟨.refl, trivial⟩) fun _ => .bind ih fun others => .pure _

theorem pollSources_moves :
    Polled.Leads (fun _ => True) (Move input)
      (pollSources input : Call (Polled (EcsBot V J)) _ _) := by
  unfold pollSources
  refine .bind (.now fun bot _ => ⟨.single (.woken bot), trivial⟩) fun woken => ?_
  exact .bind (.now fun bot _ => ⟨.refl, trivial⟩) fun count => pollWaves_moves woken _

theorem firePlan_moves (polled : List Nat) (bot : EcsBot V J) (before chains : List (EcsChain V))
    (h : bot.chains = before ++ chains) :
    MovesTo input bot (bot.firePlan input polled before.length chains).2 ∧
      (bot.firePlan input polled before.length chains).2.reading = bot.reading := by
  induction chains generalizing bot before with
  | nil => exact ⟨.refl, rfl⟩
  | cons chain rest ih =>
    unfold firePlan
    have hdeclared : bot.chains[before.length]? = some chain := by simp [h]
    obtain ⟨hchains, hreading, -, -, -⟩ := declared_fireChain input
      (moved input polled before.length).isSome before.length chain bot
    have hrest := ih (bot.fireChain input (moved input polled before.length).isSome before.length
      chain).2 (before ++ [chain]) (by simp [hchains, h])
    rw [List.length_append, List.length_singleton] at hrest
    exact ⟨.head (.fired bot _ _ chain hdeclared) hrest.1, hrest.2.trans hreading⟩

theorem act_moves (polled : List Nat) (stalled : Option BotError) :
    Polled.Leads (fun _ => True) (Move input)
      (act input polled stalled : Call (Polled (EcsBot V J)) _ _) := by
  intro start _
  unfold act
  rw [Polled.now_bind, Polled.now_bind]
  dsimp only
  obtain ⟨hplan, -⟩ := @firePlan_moves V J _ input _ polled (commit input polled start.state) []
    start.state.chains rfl
  generalize hfired : firePlan input polled (commit input polled start.state) 0
    start.state.chains = fired
  rw [List.length_nil, hfired] at hplan
  rw [Polled.bind_now_snd]
  exact ⟨.head (.committed start.state polled)
    (hplan.trans (runSteps_walks _ ⟨start.patience, fired.2⟩ rfl).1), trivial⟩

theorem ticked_moves (bot : EcsBot V J) (input : TickInput V) :
    MovesTo input bot (bot.ticked input) := by
  have htick : Polled.Leads (fun _ => True) (Move input)
      (tick input : Call (Polled (EcsBot V J)) _ _) := by
    unfold tick
    refine .bind (.now fun bot _ => ⟨.single (.clocked bot), trivial⟩) fun _ => ?_
    cases input.settled with
    | error _ => exact .pure _
    | ok _ =>
      refine .bind pollSources_moves fun polled => ?_
      split
      · exact act_moves polled none
      · split
        · exact act_moves polled _
        · exact .pure _
  exact (htick ⟨input.patience, bot⟩ trivial).1

/-- What assembly establishes, and every move, wake and settlement keeps, holds wherever a
run leads. -/
theorem Reachable.keeps {I : EcsBot V J → Prop} {bot : EcsBot V J} (reachable : Reachable bot)
    (hstart : ∀ start, Assembled start → I start)
    (hmove : ∀ input bot next, I bot → Move input bot next → I next)
    (hwake : ∀ bot chain, I bot → I (bot.wake chain))
    (hresolve : ∀ bot key evidence, I bot → I (resolveEffect key evidence bot).2) : I bot := by
  obtain ⟨start, actions, hassembled, rfl⟩ := reachable
  have hrun : ∀ (actions : List (BotAction V)) (bot : EcsBot V J), I bot →
      I (List.foldl after bot actions) := by
    intro actions
    induction actions with
    | nil => exact fun bot hbot => hbot
    | cons action rest ih =>
      intro bot hbot
      refine ih _ ?_
      cases action with
      | tick input => exact (ticked_moves bot input).keeps (hmove input) hbot
      | wake chain => exact hwake bot chain hbot
      | resolve key evidence => exact hresolve bot key evidence hbot
  exact hrun actions start (hstart start hassembled)

theorem assembled_idle {bot : EcsBot V J} (h : Assembled bot) :
    ∃ chains policy clock ledger, bot = idle chains policy clock ledger := by
  obtain ⟨name, chains, policy, clock, scope, left, hassembled⟩ := h
  unfold assemble at hassembled
  obtain ⟨_, _, -, hassembled⟩ := Call.bind_eq_ok.mp hassembled
  obtain ⟨ledger, _, -, hassembled⟩ := Call.bind_eq_ok.mp hassembled
  obtain ⟨_, _, -, hassembled⟩ := Call.bind_eq_ok.mp hassembled
  exact ⟨chains, policy, clock, ledger, (Except.ok.inj (Prod.mk.inj hassembled).1).symm⟩

theorem same_resolveEffect (key : EffectKey) (evidence : EffectEvidence) (bot : EcsBot V J) :
    Same bot (resolveEffect key evidence bot).2 := by
  have honLedger : ∀ {ε α : Type} (rename : ε → BotError) (call : Call (Ledger V J) ε α),
      Call.Keeps (Same bot) (Call.mapRefusal rename (onLedger call)) := by
    intro ε α rename call state hstate
    rw [Call.mapRefusal_snd]
    exact hstate.trans (same_ledger state _)
  have hrefuse : ∀ {ε α : Type} (refusal : ε),
      Call.Keeps (Same bot) (Call.refuse refusal : Call (EcsBot V J) ε α) :=
    fun refusal state hstate => hstate
  have hresolve : Call.Keeps (Same bot) (resolveEffect key evidence) := by
    unfold resolveEffect
    refine .bind (fun state hstate => hstate) fun seen => ?_
    split
    · exact honLedger _ _
    · split
      · exact honLedger _ _
      · refine .bind (honLedger _ _) fun meaning => ?_
        split
        · refine .bind (honLedger _ _) fun _ => ?_
          intro state hstate
          refine hstate.trans ?_
          rw [Call.change_apply]
          unfold settled
          split
          · exact .refl _
          · exact (same_ledger state _).trans (same_note _ _)
        · exact honLedger _ _
        all_goals exact hrefuse _
  exact hresolve bot (.refl bot)

end Tick

end EcsBot

end LogicalWorks.Ecs
