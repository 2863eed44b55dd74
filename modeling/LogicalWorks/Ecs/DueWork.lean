import Mathlib.Data.List.Pairwise
import LogicalWorks.Ecs.Parking
import LogicalWorks.Ecs.PlainBot

/-! What a parked driver leaves waiting: wherever something is due, some tick at that
instant finds work, so nothing due is exactly when a driver may park. -/
namespace LogicalWorks.Ecs
open Journal (EffectKey EffectEvidence)

namespace EcsBot

variable {V J : Type}

def Disturbed (before after : EcsBot V J) : Prop :=
  ∃ earlier happening, before.history ++ (earlier ++ [happening]) <+: after.history ∧
    isWork before.chains happening = true

theorem Disturbed.not_atRest {before after : EcsBot V J} (h : Disturbed before after) :
    ¬ AtRest before after := by
  obtain ⟨earlier, happening, hnoted, hwork⟩ := h
  rintro ⟨noted, hhistory, hquiet⟩
  rw [hhistory, List.prefix_append_right_inj] at hnoted
  have hmem : happening ∈ noted := hnoted.subset (by simp)
  rw [hquiet happening hmem] at hwork
  cases hwork

theorem Disturbed.grown {before middle after : EcsBot V J} (h : Disturbed before middle)
    (hgrown : middle.history <+: after.history) : Disturbed before after := by
  obtain ⟨earlier, happening, hnoted, hwork⟩ := h
  exact ⟨earlier, happening, hnoted.trans hgrown, hwork⟩

theorem Disturbed.of_later {before middle after : EcsBot V J} (h : Disturbed middle after)
    (hgrown : before.history <+: middle.history) (hchains : middle.chains = before.chains) :
    Disturbed before after := by
  obtain ⟨earlier, happening, hnoted, hwork⟩ := h
  obtain ⟨noted, hmiddle⟩ := hgrown
  refine ⟨noted ++ earlier, happening, ?_, hchains ▸ hwork⟩
  rw [← hmiddle] at hnoted
  simpa using hnoted

theorem disturbed_note {bot after : EcsBot V J} {happening : Happening J}
    (hwork : isWork bot.chains happening = true)
    (hgrown : (bot.note happening).history <+: after.history) : Disturbed bot after :=
  ⟨[], happening, hgrown, hwork⟩

section Plan

variable [Hashing] {input : TickInput V}

theorem place_history (bot : EcsBot V J) (index : Nat) (transition : Transition V) :
    (bot.place index transition).history = bot.history := by
  unfold place
  split <;> rfl

theorem fireChain_disturbed {bot : EcsBot V J} {index : Nat} {chain : EcsChain V} {moving : Bool}
    (h : ¬ bot.Standing index chain moving) :
    Disturbed bot (bot.fireChain input moving index chain).2 := by
  unfold Standing at h
  cases hheld : bot.ledger.transition index with
  | none =>
    rw [hheld] at h
    obtain ⟨hmoving, hsome⟩ := Bool.and_eq_true_iff.mp (Bool.eq_true_of_not_eq_false h)
    obtain ⟨value, hslot⟩ := Option.isSome_iff_exists.mp hsome
    rw [fireChain_opened hheld hmoving hslot]
    exact disturbed_note rfl (by rw [place_history]; exact List.prefix_rfl)
  | some held =>
    rw [hheld] at h
    obtain ⟨hopen, hadmits⟩ := not_or.mp h
    have hadmits := Bool.eq_true_of_not_eq_false hadmits
    cases hslot : (bot.observed[index]?).join with
    | none =>
      rw [hslot] at hadmits
      cases hadmits
    | some value =>
      rw [hslot] at hadmits
      rw [fireChain_resumed hheld (Bool.eq_false_of_not_eq_true hopen) hslot hadmits]
      exact disturbed_note rfl (by rw [place_history]; exact List.prefix_rfl)

theorem firePlan_grown (polled : List Nat) (bot : EcsBot V J) (index : Nat)
    (chains : List (EcsChain V)) :
    bot.history <+: (bot.firePlan input polled index chains).2.history := by
  induction chains generalizing bot index with
  | nil => exact List.prefix_rfl
  | cons chain rest ih =>
    unfold firePlan
    exact (declared_fireChain input _ index chain bot).grown.trans (ih _ _)

theorem firePlan_disturbed (polled : List Nat) (bot : EcsBot V J) (before chains : List (EcsChain V))
    (hchains : bot.chains = before ++ chains)
    (h : ∃ index chain, before.length ≤ index ∧ bot.chains[index]? = some chain ∧
      ¬ bot.Standing index chain (moved input polled index).isSome) :
    Disturbed bot (bot.firePlan input polled before.length chains).2 := by
  induction chains generalizing bot before with
  | nil =>
    obtain ⟨index, chain, hindex, hchain, -⟩ := h
    rw [hchains, List.append_nil] at hchain
    have hlt := (List.getElem?_eq_some_iff.mp hchain).1
    omega
  | cons chain rest ih =>
    have hdeclared : bot.chains[before.length]? = some chain := by simp [hchains]
    have hfired := declared_fireChain input (moved input polled before.length).isSome
      before.length chain bot
    unfold firePlan
    by_cases hstanding : bot.Standing before.length chain (moved input polled before.length).isSome
    · obtain ⟨-, -, hbeside, hobserved, -⟩ := @fireChain_standing V J _ input _ _ _ _
        hstanding hdeclared
      refine Disturbed.of_later ?_ hfired.grown hfired.chains_eq
      have hlength : before.length + 1 = (before ++ [chain]).length := by simp
      dsimp only
      rw [hlength]
      refine ih _ (before ++ [chain]) (by simp [hfired.chains_eq, hchains]) ?_
      obtain ⟨index, held, hindex, hheld, hnot⟩ := h
      have hne : index ≠ before.length := by
        rintro rfl
        rw [hdeclared] at hheld
        cases hheld
        exact hnot hstanding
      refine ⟨index, held, by rw [← hlength]; omega, by rw [hfired.chains_eq]; exact hheld, ?_⟩
      unfold Standing at hnot ⊢
      rw [hbeside.transition_eq index hne, hobserved index hne]
      exact hnot
    · exact (fireChain_disturbed hstanding).grown (firePlan_grown polled _ _ _)

end Plan

section Walk

variable [EffectJournal J] [Hashing] {input : TickInput V} {retry : RetryReading}

theorem runStep_retries {polled : Polled (EcsBot V J)} {work : WorkId} {key : EffectKey}
    {evidence : EffectEvidence} {attempts : Nat}
    (h : polled.state.ledger.recordingFailed work = some (key, evidence, attempts)) :
    Disturbed polled.state
      (runStep input retry ⟨work.chain, work.entry, .attempt⟩ polled).2.state := by
  have hbranch : runStep input retry ⟨work.chain, work.entry, .attempt⟩ polled =
      retryRecording retry work key evidence attempts polled := by
    unfold runStep Step.work
    rw [Polled.now_bind]
    dsimp only
    rw [h]
  rw [hbranch]
  exact disturbed_note rfl (retryRecording_same work key evidence attempts polled).grown

theorem runStep_attempts {polled : Polled (EcsBot V J)} {work : WorkId}
    (hheld : polled.state.ledger.recordingFailed work = none)
    (hretired : polled.state.retired ⟨work.chain, work.entry, .attempt⟩ = false)
    (hblocked : (polled.state.ledger.actionOf work).any polled.state.ledger.effects.blocks = false)
    (hexpired : (polled.state.ledger.expireRetry work retry).1 = false) :
    Disturbed polled.state
      (runStep input retry ⟨work.chain, work.entry, .attempt⟩ polled).2.state := by
  have hbranch : runStep input retry ⟨work.chain, work.entry, .attempt⟩ polled =
      attemptStep input retry work polled := by
    unfold runStep Step.work
    rw [Polled.now_bind]
    dsimp only
    rw [hheld]
    dsimp only
    rw [hretired, if_neg (by decide), hblocked, if_neg (by decide), hexpired, if_neg (by decide)]
  rw [hbranch]
  exact disturbed_note rfl (attemptStep_same work polled).grown

theorem runChain_first (step : Step) (rest : List Step) {polled : Polled (EcsBot V J)}
    (h : polled.state.reading = retry) :
    (runStep input retry step polled).2.state.history <+:
      (runChain input retry (step :: rest) polled).2.state.history := by
  have hstep : (runStep input retry step polled).2.state.reading = retry :=
    (runStep_walks step polled h).2
  rw [runChain, Call.bind_apply, Call.bind]
  generalize runStep input retry step polled = ran at hstep ⊢
  obtain ⟨drop | ended, next⟩ := ran
  · exact List.prefix_rfl
  · cases ended with
    | stop failure => exact List.prefix_rfl
    | goOn fired =>
      dsimp only
      rw [Call.bind_pure_snd]
      exact (@MovesTo.grown V J _ input _ _ _ (runChain_walks rest next hstep).1).2

theorem runSteps_first (row : ChainPlan) (rest : List ChainPlan) {polled : Polled (EcsBot V J)}
    (h : polled.state.reading = retry) :
    (runChain input retry row.steps polled).2.state.history <+:
      (runSteps input retry (row :: rest) polled).2.state.history := by
  have hown : (runChain input retry row.steps polled).2.state.reading = retry :=
    (runChain_walks row.steps polled h).2
  rw [runSteps, Call.bind_apply, Call.bind]
  generalize runChain input retry row.steps polled = ran at hown ⊢
  obtain ⟨drop | own, next⟩ := ran
  · exact List.prefix_rfl
  · dsimp only
    rw [Call.bind_pure_snd]
    exact (@MovesTo.grown V J _ input _ _ _ (runSteps_walks rest next hown).1).2

omit [Hashing] in
theorem Reaches.unexpired {planned : EcsBot V J} {ledger : Ledger V J} {transition : Transition V}
    {index entry : Nat} (h : Reaches planned transition index entry ledger)
    (hexpired : ∀ elapsed, transition.retryAdmission entry retry ≠ some (.expired elapsed)) :
    (ledger.expireRetry ⟨index, entry⟩ retry).1 = false := by
  unfold Ledger.expireRetry
  dsimp only
  cases hheld : ledger.transition index with
  | none => rfl
  | some held =>
    dsimp only
    rw [h.retryAdmission_eq hheld]
    split
    · rename_i elapsed _ _ _ hadmission _
      exact absurd hadmission (hexpired elapsed)
    · rfl

theorem Reaches.attempted {planned : EcsBot V J} {transition : Transition V} {index entry : Nat}
    {polled : Polled (EcsBot V J)}
    (h : Reaches planned transition index entry polled.state.ledger)
    (hstops : walkStops planned.ledger retry transition ⟨index, entry⟩ = false)
    (hasks : walkAsks transition entry = true)
    (hentry : planned.entryDue retry transition ⟨index, entry⟩ = true) :
    Disturbed polled.state
      (runStep input retry ⟨index, entry, .attempt⟩ polled).2.state := by
  have hstate := h.entries_eq entry le_rfl
  have hblocked : (polled.state.ledger.actionOf ⟨index, entry⟩).any
      polled.state.ledger.effects.blocks = false := by
    rw [h.blocked_eq]
    exact unblocked_of_walkStops hstops hasks
  unfold entryDue at hentry
  dsimp only at hentry
  cases hfound : transition.entries[entry]? with
  | none => rw [hfound] at hentry; cases hentry
  | some state =>
    rw [hfound] at hentry hstate
    cases state with
    | recordingFailed key evidence cause attempts =>
      refine @runStep_retries V J _ _ input retry polled ⟨index, entry⟩ key evidence attempts ?_
      unfold Ledger.recordingFailed
      rw [hstate]
    | notStarted =>
      refine @runStep_attempts V J _ _ input retry polled ⟨index, entry⟩ ?_ ?_ hblocked ?_
      · unfold Ledger.recordingFailed
        rw [hstate]
      · rw [h.retired_eq]
        simpa using hentry
      · refine h.unexpired fun elapsed hadmission => ?_
        unfold Transition.retryAdmission at hadmission
        rw [hfound] at hadmission
        cases hadmission
    | definitelyFailed attempts cause retryAt =>
      obtain ⟨hbegin, hretired⟩ := Bool.and_eq_true_iff.mp hentry
      refine @runStep_attempts V J _ _ input retry polled ⟨index, entry⟩ ?_ ?_ hblocked ?_
      · unfold Ledger.recordingFailed
        rw [hstate]
      · rw [h.retired_eq]
        simpa using hretired
      · refine h.unexpired fun elapsed hadmission => ?_
        rw [of_decide_eq_true hbegin] at hadmission
        cases hadmission
    | _ => cases hentry

omit [EffectJournal J] in
theorem walkAsks_of_entryDue {bot : EcsBot V J} {transition : Transition V} {work : WorkId}
    (h : bot.entryDue retry transition work = true) : walkAsks transition work.entry = true := by
  unfold entryDue at h
  unfold walkAsks
  cases hfound : transition.entries[work.entry]? with
  | none => rw [hfound] at h; cases h
  | some state =>
    rw [hfound] at h
    cases state <;> first | rfl | cases h

/-- The walk of a transition with something due, where every condition holds exactly on the
entries that are due, does work. -/
theorem runChain_disturbed {planned : EcsBot V J} {transition : Transition V} {value : V}
    {index : Nat}
    (hcheck : ∀ entry, input.check ⟨index, entry⟩ value =
      .ok (planned.entryDue retry transition ⟨index, entry⟩))
    (entries : List ChainEntry) (entry : Nat) (polled : Polled (EcsBot V J))
    (hreading : polled.state.reading = retry)
    (hreaches : Reaches planned transition index entry polled.state.ledger)
    (hdue : planned.dueFrom retry transition index entry entries = true) :
    Disturbed polled.state (runChain input retry
      (planChain input.check planned.ledger retry transition value index entry entries).1
      polled).2.state := by
  induction entries generalizing entry polled with
  | nil => cases hdue
  | cons declared rest ih =>
    rw [planChain_cons]
    unfold dueFrom at hdue
    obtain ⟨hstops, hlater⟩ := Bool.and_eq_true_iff.mp hdue
    have hstops : walkStops planned.ledger retry transition ⟨index, entry⟩ = false := by
      simpa using hstops
    rw [hstops, if_neg (by decide)]
    cases hentry : planned.entryDue retry transition ⟨index, entry⟩ with
    | true =>
      have hasks := walkAsks_of_entryDue hentry
      rw [if_pos hasks, decided_of_true ((hcheck entry).trans (congrArg _ hentry))]
      have hstep := @Reaches.attempted V J _ _ input retry planned transition index entry polled
        hreaches hstops hasks hentry
      exact hstep.grown (runChain_first _ _ hreading)
    | false =>
      rw [hentry, Bool.false_or] at hlater
      split
      · rename_i hasks
        have hblocked : (polled.state.ledger.actionOf ⟨index, entry⟩).any
            polled.state.ledger.effects.blocks = false := by
          rw [hreaches.blocked_eq]
          exact unblocked_of_walkStops hstops hasks
        rw [decided_of_false ((hcheck entry).trans (congrArg _ hentry)),
          runChain_goOn (runStep_skip hblocked)]
        have hsame := same_write polled.state ⟨index, entry⟩ fun ledger =>
          ledger.skip ⟨index, entry⟩
        refine Disturbed.of_later ?_ hsame.grown hsame.chains_eq
        exact ih (entry + 1) { polled with
            state := polled.state.write ⟨index, entry⟩ fun ledger => ledger.skip ⟨index, entry⟩ }
          (hsame.reading_eq.trans hreading) (by rw [ledger_write]; exact hreaches.skip) hlater
      · exact ih (entry + 1) polled hreading hreaches.later hlater

theorem runSteps_disturbed {rows : List ChainPlan} {row : ChainPlan} (polled : Polled (EcsBot V J))
    (hreading : polled.state.reading = retry) (hrow : row ∈ rows)
    (hothers : ∀ other ∈ rows, other ≠ row → other.steps = [])
    (h : Disturbed polled.state (runChain input retry row.steps polled).2.state) :
    Disturbed polled.state (runSteps input retry rows polled).2.state := by
  induction rows with
  | nil => cases hrow
  | cons first rest ih =>
    by_cases hfirst : first = row
    · subst hfirst
      exact h.grown (runSteps_first first rest hreading)
    · have hnone := hothers first List.mem_cons_self hfirst
      have hlater := ih ((List.mem_cons.mp hrow).resolve_left (Ne.symm hfirst))
        fun other hother => hothers other (List.mem_cons_of_mem _ hother)
      rw [runSteps, hnone]
      have hskip : runChain input retry [] polled = (.ok (0, none), polled) := rfl
      rw [Call.bind_of_ok hskip, Call.bind_pure_snd]
      exact hlater

end Walk

section Tick

variable [EffectJournal J] [Hashing] {bot : EcsBot V J} {clock instant : Nat}
  {moves : Nat → V → Prop}

def probe (instant : Nat) (poll : Nat → Option V) (check : WorkId → V → Except BotError Bool) :
    TickInput V where
  clock := instant
  settled := .ok ()
  quiet _ := false
  poll chain := .ok (poll chain)
  check := check
  answer _ := .ok ()
  patience := none

omit [EffectJournal J] [Hashing] in
theorem pollError_probe (poll : Nat → Option V) (check : WorkId → V → Except BotError Bool)
    (polled : List Nat) : pollError (probe instant poll check) polled = none := by
  induction polled with
  | nil => rfl
  | cons chain rest ih => exact ih

omit [EffectJournal J] [Hashing] in
theorem dueIn_ticks {input : TickInput V} {woken : List Bool} (hquiet : ∀ chain, input.quiet chain = false)
    (chains : List Nat) (bot : EcsBot V J) :
    (dueIn input woken bot chains).2.cadences.kinds = bot.cadences.kinds ∧
      ∀ chain ∈ chains, bot.cadences.kinds[chain]? = some .tick →
        chain ∈ (dueIn input woken bot chains).1 := by
  induction chains generalizing bot with
  | nil => exact ⟨rfl, by simp⟩
  | cons first rest ih =>
    unfold dueIn
    have hkinds := bot.cadences.kinds_pollDue first bot.now woken
    dsimp only
    split
    · obtain ⟨hrest, hothers⟩ := ih
        (({ bot with cadences := (bot.cadences.pollDue first bot.now woken).2 }).note (.polled first))
      refine ⟨hrest.trans hkinds, ?_⟩
      intro chain hmem htick
      rcases List.mem_cons.mp hmem with rfl | hmem
      · exact List.mem_cons_self
      · exact List.mem_cons_of_mem _ (hothers chain hmem (by rw [← htick]; exact congrArg (·[chain]?) hkinds))
    · rename_i hnot
      obtain ⟨hrest, hothers⟩ := ih
        { bot with cadences := (bot.cadences.pollDue first bot.now woken).2 }
      refine ⟨hrest.trans hkinds, ?_⟩
      intro chain hmem htick
      rcases List.mem_cons.mp hmem with rfl | hmem
      · rw [hquiet, Bool.not_false, Bool.and_true] at hnot
        unfold Cadences.pollDue at hnot
        rw [htick] at hnot
        exact absurd rfl hnot
      · exact hothers chain hmem (by rw [← htick]; exact congrArg (·[chain]?) hkinds)

omit [EffectJournal J] [Hashing] in
theorem pollWaves_ticks {input : TickInput V} {woken : List Bool}
    (hquiet : ∀ chain, input.quiet chain = false) (waves : List (List Nat)) (bot : EcsBot V J) :
    ∃ chains next, pollWaves input woken waves ⟨none, bot⟩ = (.ok chains, ⟨none, next⟩) ∧
      next.cadences.kinds = bot.cadences.kinds ∧
      ∀ chain ∈ waves.flatten, bot.cadences.kinds[chain]? = some .tick → chain ∈ chains := by
  induction waves generalizing bot with
  | nil => exact ⟨[], bot, rfl, rfl, by simp⟩
  | cons wave rest ih =>
    obtain ⟨hkinds, hwave⟩ := @dueIn_ticks V J input woken hquiet wave bot
    unfold pollWaves
    rw [Polled.now_bind]
    dsimp only
    obtain ⟨chains, next, hrest, hnext, hothers⟩ := ih (dueIn input woken bot wave).2
    split
    · rename_i hnone
      refine ⟨chains, next, hrest, hnext.trans hkinds, ?_⟩
      intro chain hmem htick
      rcases List.mem_append.mp (List.flatten_cons ▸ hmem) with hmem | hmem
      · have hpolled := hwave chain hmem htick
        rw [List.isEmpty_iff.mp hnone] at hpolled
        cases hpolled
      · exact hothers chain hmem (by rw [hkinds]; exact htick)
    · have hawait : (Polled.awaitNow fun bot => ((), bot) : Call (Polled (EcsBot V J)) _ _)
          ⟨none, (dueIn input woken bot wave).2⟩ =
            (.ok (), ⟨none, (dueIn input woken bot wave).2⟩) := rfl
      rw [Call.bind_of_ok hawait, Call.bind_of_ok hrest]
      refine ⟨_, next, rfl, hnext.trans hkinds, ?_⟩
      intro chain hmem htick
      rcases List.mem_append.mp (List.flatten_cons ▸ hmem) with hmem | hmem
      · exact List.mem_append_left _ (hwave chain hmem htick)
      · exact List.mem_append_right _ (hothers chain hmem (by rw [hkinds]; exact htick))

def polledAt (bot : EcsBot V J) (instant : Nat) (noted : List (Happening J)) : EcsBot V J :=
  { bot with
    now := instant
    cadences := bot.cadences.takeWakes.2
    history := bot.history ++ noted }

theorem ticked_probe (hscheduled : Scheduled bot) (hparked : ParkedAt bot clock instant)
    (poll : Nat → Option V) (check : WorkId → V → Except BotError Bool) :
    ∃ chains noted,
      (∀ index chain, bot.chains[index]? = some chain → chain.cadence = .tick → index ∈ chains) ∧
      bot.ticked (probe instant poll check) =
        (act (probe instant poll check) chains none ⟨none, bot.polledAt instant noted⟩).2.state := by
  have hends := @pollSources_parked V J _ (probe instant poll check) bot clock instant
    hscheduled hparked
  obtain ⟨chains, next, hpolls, -, hticks⟩ := @pollWaves_ticks V J (probe instant poll check)
    bot.cadences.takeWakes.1 (fun _ => rfl)
    (waves maxInFlightPolls (List.range bot.chains.length))
    { bot with now := instant, cadences := bot.cadences.takeWakes.2 }
  have hsources : pollSources (probe instant poll check) ⟨none, { bot with now := instant }⟩ =
      (.ok chains, ⟨none, next⟩) := hpolls
  obtain ⟨⟨noted, hnext, -⟩, -⟩ := hends.ok rfl hsources
  dsimp only at hnext
  subst hnext
  refine ⟨chains, noted, ?_, ?_⟩
  · intro index chain hdeclared htick
    refine hticks index ?_ ?_
    · rw [flatten_waves, List.mem_range]
      exact (List.getElem?_eq_some_iff.mp hdeclared).1
    · have hkind : bot.cadences.kinds[index]? = some .tick := by
        rw [hscheduled.kinds_eq, List.getElem?_map, hdeclared, Option.map_some, htick]
      exact hkind
  · unfold ticked tick
    rw [Polled.now_bind]
    have hsettled : (probe instant poll check).settled = .ok () := rfl
    have hpatience : (probe instant poll check).patience = none := rfl
    have hclock : (probe instant poll check).clock = instant := rfl
    dsimp only
    rw [hsettled, hpatience, hclock]
    dsimp only
    rw [Call.bind_of_ok hsources, pollError_probe]
    rfl

theorem act_state (input : TickInput V) (chains : List Nat) (state : EcsBot V J) :
    (act input chains none ⟨none, state⟩).2.state =
      (runSteps input ((commit input chains state).firePlan input chains 0 state.chains).2.reading
        ((commit input chains state).firePlan input chains 0 state.chains).1
        ⟨none, ((commit input chains state).firePlan input chains 0 state.chains).2⟩).2.state := by
  unfold act
  rw [Polled.now_bind, Polled.now_bind, Polled.bind_now_snd]

theorem act_opens {input : TickInput V} {chains : List Nat} {state : EcsBot V J} {index : Nat}
    {chain : EcsChain V} (hdeclared : state.chains[index]? = some chain)
    (h : ¬ (commit input chains state).Standing index chain (moved input chains index).isSome) :
    Disturbed state (act input chains none ⟨none, state⟩).2.state := by
  rw [act_state]
  have hplan := @firePlan_disturbed V J _ input chains (commit input chains state) []
    state.chains rfl ⟨index, chain, Nat.zero_le _, hdeclared, h⟩
  rw [List.length_nil] at hplan
  generalize (commit input chains state).firePlan input chains 0 state.chains = plan at hplan ⊢
  exact hplan.grown (@MovesTo.grown V J _ input _ _ _
    (runSteps_walks plan.1 ⟨none, plan.2⟩ rfl).1).2

omit [EffectJournal J] in
theorem entryDue_congr {retry : RetryReading} {planned : EcsBot V J} {index : Nat}
    (heffects : planned.ledger.effects = bot.ledger.effects)
    (hactions : planned.ledger.actions = bot.ledger.actions)
    (hslot : planned.ledger.transition index = bot.ledger.transition index)
    (transition : Transition V) (entry : Nat) :
    planned.entryDue retry transition ⟨index, entry⟩ =
      bot.entryDue retry transition ⟨index, entry⟩ := by
  unfold entryDue retired Ledger.actionOf Ledger.generation
  dsimp only
  rw [heffects, hactions, hslot]

omit [EffectJournal J] in
theorem retained_of_dueFrom {retry : RetryReading} {transition : Transition V} {index : Nat}
    (entries : List ChainEntry) (entry : Nat)
    (h : bot.dueFrom retry transition index entry entries = true) :
    transition.isRetained = true := by
  induction entries generalizing entry with
  | nil => cases h
  | cons declared rest ih =>
    unfold dueFrom at h
    obtain ⟨-, h⟩ := Bool.and_eq_true_iff.mp h
    rcases Bool.or_eq_true_iff.mp h with hentry | hlater
    · unfold entryDue at hentry
      cases hstate : transition.entries[entry]? with
      | none => rw [hstate] at hentry; cases hentry
      | some state =>
        refine List.any_eq_true.mpr ⟨state, List.mem_of_getElem? hstate, ?_⟩
        rw [hstate] at hentry
        cases state <;> first | rfl | cases hentry
    · exact ih (entry + 1) hlater

omit [EffectJournal J] [Hashing] in
theorem planChain_of_error {check : WorkId → V → Except BotError Bool} {value : V} {index : Nat}
    (h : ∀ entry, ∃ error, check ⟨index, entry⟩ value = .error error) (ledger : Ledger V J)
    (retry : RetryReading) (transition : Transition V) (entry : Nat) (entries : List ChainEntry) :
    (planChain check ledger retry transition value index entry entries).1 = [] := by
  induction entries generalizing entry with
  | nil => rfl
  | cons declared rest ih =>
    rw [planChain_cons]
    split
    · rfl
    · split
      · obtain ⟨error, herror⟩ := h entry
        rw [decided_of_error herror]
      · exact ih (entry + 1)

/-- Acting where every chain stands and one has something due does work, when the conditions
hold exactly on what is due of that one. -/
theorem act_works {input : TickInput V} {chains : List Nat} {state : EcsBot V J} {index : Nat}
    {chain : EcsChain V} {held : Transition V} {value : V}
    (hdeclared : state.chains[index]? = some chain)
    (hstanding : ∀ other found, state.chains[other]? = some found →
      (commit input chains state).Standing other found (moved input chains other).isSome)
    (hheld : state.ledger.transition index = some held) (hvalue : held.value = some value)
    (hdue : state.dueFrom state.reading held index 0 chain.entries = true)
    (hcheck : ∀ entry, input.check ⟨index, entry⟩ value =
      .ok (state.entryDue state.reading held ⟨index, entry⟩))
    (hothers : ∀ other entry found, other ≠ index →
      ∃ error, input.check ⟨other, entry⟩ found = .error error) :
    Disturbed state (act input chains none ⟨none, state⟩).2.state := by
  rw [act_state]
  have hplan := @firePlan_standing V J _ input chains (commit input chains state) [] state.chains
    rfl fun other found _ hfound => hstanding other found hfound
  rw [List.length_nil] at hplan
  generalize (commit input chains state).firePlan input chains 0 state.chains = plan at hplan ⊢
  obtain ⟨row, hrow, hindex⟩ := hplan.present index chain (Nat.zero_le _) hdeclared
  subst hindex
  obtain ⟨hslot, hsteps⟩ := (hplan.rows row hrow).retained held chain hheld
    (retained_of_dueFrom _ _ hdue) hdeclared
  have hreading : plan.2.reading = state.reading := hplan.reading_eq
  have hsame := @dueFrom_congr V J _ state.reading state plan.2 row.chain hplan.effects_eq
    hplan.actions_eq (hslot.trans hheld.symm) held 0 chain.entries
  have hown : Disturbed plan.2 (runChain input plan.2.reading row.steps ⟨none, plan.2⟩).2.state := by
    unfold walkOf at hsteps
    rw [hvalue] at hsteps
    rw [hsteps]
    refine runChain_disturbed (fun entry => ?_) chain.entries 0 ⟨none, plan.2⟩ rfl
      (.of_transition rfl rfl rfl hslot) ?_
    · rw [hcheck entry, hreading, entryDue_congr hplan.effects_eq hplan.actions_eq
        (hslot.trans hheld.symm)]
      rfl
    · rw [hreading, hsame]
      exact hdue
  have hrun := @runSteps_disturbed V J _ _ input plan.2.reading plan.1 row ⟨none, plan.2⟩ rfl hrow
    (fun other hother hne => ?_) hown
  · refine hrun.of_later ?_ hplan.chains_eq
    rw [hplan.history_eq]
    exact List.prefix_rfl
  · have hsymm : Std.Symm fun (left right : ChainPlan) => left.chain ≠ right.chain :=
      ⟨fun _ _ h => h.symm⟩
    have hchain := (hplan.sorted.imp fun h => Nat.ne_of_lt h).forall hother hrow hne
    have hplanned := hplan.rows other hother
    obtain ⟨found, hfound⟩ := hplanned.declared
    cases hslot : (commit input chains state).ledger.transition other.chain with
    | none => exact hplanned.finished fun held hsome => by rw [hslot] at hsome; cases hsome
    | some kept =>
      cases hretained : kept.isRetained with
      | false =>
        refine hplanned.finished fun held hsome => ?_
        rw [hslot] at hsome
        cases hsome
        exact hretained
      | true =>
        obtain ⟨-, hkept⟩ := hplanned.retained kept found hslot hretained hfound
        rw [hkept]
        unfold walkOf
        cases kept.value with
        | none => rfl
        | some payload =>
          exact planChain_of_error (fun entry => hothers other.chain entry payload hchain)
            _ _ _ _ _

theorem Sound.undisturbed (h : Sound bot instant moves) (hscheduled : Scheduled bot)
    (hparked : ParkedAt bot clock instant) {poll : Nat → Option V}
    (hpoll : ∀ chain value, poll chain = some value → moves chain value)
    (check : WorkId → V → Except BotError Bool) :
    ∃ chains noted,
      (∀ index chain, bot.chains[index]? = some chain → chain.cadence = .tick → index ∈ chains) ∧
      ¬ Disturbed (bot.polledAt instant noted)
        (act (probe instant poll check) chains none ⟨none, bot.polledAt instant noted⟩).2.state := by
  obtain ⟨chains, noted, hticks, hticked⟩ := ticked_probe hscheduled hparked poll check
  refine ⟨chains, noted, hticks, fun hdisturbed => ?_⟩
  have hrest := h (probe instant poll check) rfl fun chain value hanswer =>
    hpoll chain value (Except.ok.inj hanswer)
  rw [hticked] at hrest
  exact (hdisturbed.of_later (List.prefix_append _ _) rfl).not_atRest hrest

omit [Hashing] in
theorem slot_probe (hscheduled : Scheduled bot) {poll : Nat → Option V}
    {check : WorkId → V → Except BotError Bool} {chains : List Nat} {noted : List (Happening J)}
    {index : Nat} {chain : EcsChain V} (hdeclared : bot.chains[index]? = some chain) :
    ((commit (probe instant poll check) chains (bot.polledAt instant noted)).observed[index]?).join =
      (moved (probe instant poll check) chains index).or (bot.observed[index]?).join := by
  refine slot_commit chains ?_
  have hlt := (List.getElem?_eq_some_iff.mp hdeclared).1
  rw [← hscheduled.observed_length] at hlt
  exact hlt

omit [EffectJournal J] [Hashing] in
theorem not_standing_of_behind {state : EcsBot V J} {index : Nat} {chain : EcsChain V}
    {moving : Bool} (hledger : state.ledger = bot.ledger)
    (h : bot.behind index chain (state.observed[index]?).join = true) :
    ¬ state.Standing index chain moving := by
  unfold behind at h
  unfold Standing
  rw [hledger]
  cases hheld : bot.ledger.transition index with
  | none => rw [hheld] at h; cases h
  | some held =>
    rw [hheld] at h
    obtain ⟨hopen, hadmits⟩ := Bool.and_eq_true_iff.mp h
    dsimp only
    rw [hadmits]
    simpa using hopen

theorem Sound.not_behind (h : Sound bot instant moves) (hscheduled : Scheduled bot)
    (hparked : ParkedAt bot clock instant) {index : Nat} {chain : EcsChain V}
    (hdeclared : bot.chains[index]? = some chain) :
    bot.behind index chain (bot.observed[index]?).join = false := by
  by_contra hbehind
  have hbehind := Bool.eq_true_of_not_eq_false hbehind
  obtain ⟨chains, noted, -, hcalm⟩ := @Sound.undisturbed V J _ _ bot clock instant moves h hscheduled
    hparked (fun _ => none) (fun chain value hpoll => by cases hpoll) fun _ _ => .ok false
  refine hcalm (@act_opens V J _ _ _ chains (bot.polledAt instant noted) index chain hdeclared
    (@not_standing_of_behind V J bot _ index chain _ rfl ?_))
  have hmoved : moved (probe instant (fun _ => none) fun _ _ => .ok false) chains index =
      (none : Option V) := by
    unfold moved probe
    split <;> rfl
  rw [slot_probe hscheduled hdeclared, hmoved, Option.none_or]
  exact hbehind

theorem Sound.not_opens (h : Sound bot instant moves) (hscheduled : Scheduled bot)
    (hparked : ParkedAt bot clock instant) {index : Nat} {chain : EcsChain V} {value : V}
    (hdeclared : bot.chains[index]? = some chain) (hcadence : chain.cadence = .tick)
    (hmove : moves index value) : bot.opens index chain value = false := by
  by_contra hopens
  have hopens := Bool.eq_true_of_not_eq_false hopens
  obtain ⟨chains, noted, hticks, hcalm⟩ := @Sound.undisturbed V J _ _ bot clock instant moves h
    hscheduled hparked (fun other => if other = index then some value else none)
    (fun other found hpoll => by
      split at hpoll
      · rename_i hother
        cases hpoll
        exact hother ▸ hmove
      · cases hpoll) fun _ _ => .ok false
  refine hcalm (@act_opens V J _ _ _ chains (bot.polledAt instant noted) index chain hdeclared ?_)
  have hmoved : moved (probe instant (fun other => if other = index then some value else none)
      fun _ _ => .ok false) chains index = some value := by
    unfold moved probe
    rw [if_pos (hticks index chain hdeclared hcadence)]
    dsimp only
    rw [if_pos rfl]
  have hslot := @slot_probe V J _ bot instant hscheduled
    (fun other => if other = index then some value else none) (fun _ _ => .ok false) chains noted
    index chain hdeclared
  rw [hmoved, Option.some_or] at hslot
  rcases Bool.or_eq_true_iff.mp hopens with hnone | hbehind
  · intro hstanding
    have hheld : bot.ledger.transition index = none := Option.isNone_iff_eq_none.mp hnone
    unfold Standing at hstanding
    rw [hslot, hmoved] at hstanding
    have hledger : (commit (probe instant (fun other => if other = index then some value else none)
      fun _ _ => .ok false) chains (bot.polledAt instant noted)).ledger = bot.ledger := rfl
    rw [hledger, hheld] at hstanding
    cases hstanding
  · refine @not_standing_of_behind V J bot _ index chain _ rfl ?_
    rw [hslot]
    exact hbehind

def holdsOnDue (bot : EcsBot V J) (retry : RetryReading) (held : Transition V) (index : Nat) :
    WorkId → V → Except BotError Bool := fun work _ =>
  if work.chain = index then .ok (bot.entryDue retry held work) else .error (.refusal "")

theorem Sound.not_chainDue (h : Sound bot instant moves) (hscheduled : Scheduled bot)
    (hparked : ParkedAt bot clock instant) {index : Nat} {chain : EcsChain V}
    (hdeclared : bot.chains[index]? = some chain) :
    bot.chainDue ⟨bot.policy, instant⟩ index chain = false := by
  by_contra hdue
  have hdue := Bool.eq_true_of_not_eq_false hdue
  unfold chainDue at hdue
  cases hheld : bot.ledger.transition index with
  | none => rw [hheld] at hdue; cases hdue
  | some held =>
    rw [hheld] at hdue
    obtain ⟨hsome, hdue⟩ := Bool.and_eq_true_iff.mp hdue
    obtain ⟨value, hvalue⟩ := Option.isSome_iff_exists.mp hsome
    obtain ⟨chains, noted, -, hcalm⟩ := @Sound.undisturbed V J _ _ bot clock instant moves h
      hscheduled hparked (fun _ => none) (fun chain value hpoll => by cases hpoll)
      (bot.holdsOnDue ⟨bot.policy, instant⟩ held index)
    by_cases hstanding : ∀ other found, bot.chains[other]? = some found →
        (commit (probe instant (fun _ => none) (bot.holdsOnDue ⟨bot.policy, instant⟩ held index))
          chains (bot.polledAt instant noted)).Standing other found
          (moved (probe instant (fun _ => none)
            (bot.holdsOnDue ⟨bot.policy, instant⟩ held index)) chains other : Option V).isSome
    · refine hcalm (act_works hdeclared hstanding hheld hvalue ?_ ?_ ?_)
      · rw [@dueFrom_congr V J _ _ bot (bot.polledAt instant noted) index rfl rfl rfl]
        exact hdue
      · intro entry
        rw [@entryDue_congr V J _ bot _ (bot.polledAt instant noted) index rfl rfl rfl]
        exact if_pos rfl
      · intro other entry found hother
        exact ⟨.refusal "", if_neg hother⟩
    · obtain ⟨other, hsome⟩ := not_forall.mp hstanding
      obtain ⟨found, hsome⟩ := not_forall.mp hsome
      obtain ⟨hfound, hnot⟩ := Classical.not_imp.mp hsome
      exact hcalm (act_opens hfound hnot)

theorem Sound.nothingDue (h : Sound bot instant moves) (hscheduled : Scheduled bot)
    (hparked : ParkedAt bot clock instant) : NothingDue bot instant moves where
  walked _ _ hdeclared := h.not_chainDue hscheduled hparked hdeclared
  observed _ _ hdeclared := h.not_behind hscheduled hparked hdeclared
  polls _ _ _ hdeclared hcadence hmove := h.not_opens hscheduled hparked hdeclared hcadence hmove

/-- A driver told to park may do so exactly while nothing is due: no walk reaches an entry with
something to do, no newer observation waits behind a transition with nothing open, and no source
polled at every tick moves to a value its chain would admit. -/
theorem parks_soundly_iff (reachable : Reachable bot) (hparked : ParkedAt bot clock instant)
    (moves : Nat → V → Prop) : Sound bot instant moves ↔ NothingDue bot instant moves :=
  ⟨fun h => h.nothingDue reachable.scheduled hparked,
    fun h => h.sound reachable.scheduled hparked⟩

end Tick

end EcsBot

namespace PlainBot
open EcsBot

def failedOnce : EcsBot Nat MemoryJournal :=
  (bot [chainOf 1]).ticked
    (inputOf [some 1] (fun _ => true) [.error (.domainError "a" .notDelivered "")])

theorem reachable_failedOnce : failedOnce.Reachable :=
  ⟨bot [chainOf 1],
    [.tick (inputOf [some 1] (fun _ => true) [.error (.domainError "a" .notDelivered "")])],
    assembled_bot _ (by decide), rfl⟩

/-- The driver is told nothing is due, and a tick at that instant begins the second attempt. -/
theorem ended_backoff_is_parked :
    failedOnce.Reachable ∧ failedOnce.nextTick 5 = .idle ∧
      ¬ Sound failedOnce 5 (fun _ _ => False) := by
  refine ⟨reachable_failedOnce, by decide +kernel, fun hsound => ?_⟩
  have hrest := hsound (inputOf [] (fun _ => true) []) rfl fun chain value hpoll => by
    simp [inputOf] at hpoll
  obtain ⟨noted, hhistory, hquiet⟩ := hrest
  have hnoted : (failedOnce.ticked (inputOf [] (fun _ => true) [])).history.drop
      failedOnce.history.length = noted := by
    rw [hhistory, List.drop_left]
  have hwork : ((failedOnce.ticked (inputOf [] (fun _ => true) [])).history.drop
      failedOnce.history.length).any (isWork failedOnce.chains) = true := by
    decide +kernel
  rw [hnoted, List.any_eq_true] at hwork
  obtain ⟨happening, hmem, hdone⟩ := hwork
  rw [hquiet happening hmem] at hdone
  cases hdone

/-- A bot that has observed nothing parks soundly while its sources stand still. -/
theorem fresh_parks_soundly : Sound (bot [chainOf 1]) 5 (fun _ _ => False) := by
  refine (@parks_soundly_iff Nat MemoryJournal _ _ (bot [chainOf 1]) 5 5
    (reachable_bot _ (by decide)) rfl _).mpr ?_
  have hnone : ∀ index, (bot [chainOf 1]).ledger.transition index = none := by
    intro index
    cases index with
    | zero => rfl
    | succ later => rfl
  refine ⟨fun index chain _ => ?_, fun index chain _ => ?_, fun _ _ _ _ _ hmove => hmove.elim⟩
  · rw [chainDue, hnone]
  · rw [behind, hnone]

end PlainBot

end LogicalWorks.Ecs
