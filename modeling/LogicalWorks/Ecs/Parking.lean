import LogicalWorks.Ecs.Walk

/-! Parking: when the answer of `nextTick` is one a driver may park on. -/
namespace LogicalWorks.Ecs

namespace Cadences

/-- What a world's cadences keep: one slot a chain, deadlines in range, and no signal
outstanding while none is said to be. -/
structure Kept (cadences : Cadences) : Prop where
  due_length : cadences.due.length = cadences.kinds.length
  due_le : ∀ due ∈ cadences.due, due ≤ 2 ^ 64 - 1
  quiet : cadences.any = false → ∀ woken ∈ cadences.pending, woken = false

theorem kept_new (kinds : List Cadence) : (Cadences.new kinds).Kept where
  due_length := List.length_map _
  due_le := by
    intro due hdue
    obtain ⟨kind, -, rfl⟩ := List.mem_map.mp hdue
    exact Nat.zero_le _
  quiet := by
    intro hany woken hwoken
    obtain ⟨kind, hkind, rfl⟩ := List.mem_map.mp hwoken
    have hnone := List.any_eq_false.mp hany kind hkind
    simpa using hnone

theorem Kept.wake {cadences : Cadences} (h : cadences.Kept) (chain : Nat) :
    (cadences.wake chain).Kept := by
  unfold Cadences.wake
  split
  · exact ⟨h.due_length, h.due_le, fun hany => by cases hany⟩
  · exact h

theorem Kept.takeWakes {cadences : Cadences} (h : cadences.Kept) : cadences.takeWakes.2.Kept where
  due_length := h.due_length
  due_le := h.due_le
  quiet := by
    intro _ woken hwoken
    obtain ⟨_, -, rfl⟩ := List.mem_map.mp hwoken
    rfl

theorem Kept.pollDue {cadences : Cadences} (h : cadences.Kept) (chain now : Nat)
    (woken : List Bool) : (cadences.pollDue chain now woken).2.Kept := by
  unfold Cadences.pollDue
  split
  · split
    · exact h
    · split
      · exact h
      · refine ⟨(List.length_set).trans h.due_length, ?_, h.quiet⟩
        intro due hdue
        rcases List.mem_or_eq_of_mem_set hdue with hold | rfl
        · exact h.due_le due hold
        · exact Nat.min_le_right _ _
  · exact h
  · exact h

theorem kinds_pollDue (cadences : Cadences) (chain now : Nat) (woken : List Bool) :
    (cadences.pollDue chain now woken).2.kinds = cadences.kinds := by
  unfold Cadences.pollDue
  split
  · split
    · rfl
    · split <;> rfl
  · rfl
  · rfl

theorem kinds_wake (cadences : Cadences) (chain : Nat) :
    (cadences.wake chain).kinds = cadences.kinds := by
  unfold Cadences.wake
  split <;> rfl

end Cadences

namespace EcsBot

variable {V J : Type}

structure Scheduled (bot : EcsBot V J) : Prop where
  cadences : bot.cadences.Kept
  kinds_eq : bot.cadences.kinds = bot.chains.map EcsChain.cadence
  observed_length : bot.observed.length = bot.chains.length

theorem Scheduled.of_declared {before after : EcsBot V J} (h : Scheduled before)
    (hsame : Declared before after) : Scheduled after where
  cadences := by rw [hsame.cadences_eq]; exact h.cadences
  kinds_eq := by rw [hsame.cadences_eq, hsame.chains_eq]; exact h.kinds_eq
  observed_length := by rw [hsame.observed_length, hsame.chains_eq]; exact h.observed_length

/-- Work a parked driver must not have left waiting: a poll of a source that is not polled
at every tick, an attempt, another append of an outcome, or a generation opened. -/
def isWork (chains : List (EcsChain V)) : Happening J → Bool
  | .polled chain => (chains[chain]?).any fun held => held.cadence ≠ .tick
  | .opened _ | .resumed _ | .attempted _ | .retriedAppend _ _ => true
  | .begun _ _ _ | .invoked _ _ _ | .wrote _ _ | .settled _ _ _ => false

def AtRest (before after : EcsBot V J) : Prop :=
  ∃ noted, after.history = before.history ++ noted ∧
    ∀ happening ∈ noted, isWork before.chains happening = false

def Restful (before after : EcsBot V J) : Prop :=
  ∃ noted, after = { before with history := before.history ++ noted } ∧
    ∀ happening ∈ noted, isWork before.chains happening = false

theorem Restful.refl (bot : EcsBot V J) : Restful bot bot :=
  ⟨[], by rw [List.append_nil], by simp⟩

theorem Restful.trans {first second third : EcsBot V J} (h : Restful first second)
    (hrest : Restful second third) : Restful first third := by
  obtain ⟨noted, rfl, hnoted⟩ := h
  obtain ⟨others, rfl, hothers⟩ := hrest
  refine ⟨noted ++ others, by rw [← List.append_assoc], ?_⟩
  intro happening hmem
  rcases List.mem_append.mp hmem with hmem | hmem
  · exact hnoted happening hmem
  · exact hothers happening hmem

theorem restful_note {bot : EcsBot V J} {happening : Happening J}
    (h : isWork bot.chains happening = false) : Restful bot (bot.note happening) :=
  ⟨[happening], rfl, by simpa using h⟩

section Run

variable [EffectJournal J] [Hashing]

theorem Scheduled.move {input : TickInput V} {bot next : EcsBot V J} (h : Scheduled bot)
    (move : Move input bot next) : Scheduled next := by
  cases move with
  | clocked => exact ⟨h.cadences, h.kinds_eq, h.observed_length⟩
  | woken => exact ⟨h.cadences.takeWakes, h.kinds_eq, h.observed_length⟩
  | asked chain woken =>
    exact ⟨h.cadences.pollDue chain _ woken,
      (bot.cadences.kinds_pollDue chain _ woken).trans h.kinds_eq, h.observed_length⟩
  | polled chain => exact ⟨h.cadences, h.kinds_eq, h.observed_length⟩
  | committed polled =>
    exact ⟨h.cadences, h.kinds_eq, (List.length_mapIdx).trans h.observed_length⟩
  | fired moving index chain declared => exact h.of_declared (declared_fireChain _ _ _ _ _)
  | skipped work => exact h.of_declared (same_write _ _ _).declared
  | expired work due => exact h.of_declared (same_write _ _ _).declared
  | retried patience work key evidence attempts held =>
    exact h.of_declared ((same_note bot _).trans
      (retryRecording_same work key evidence attempts ⟨patience, bot⟩)).declared
  | attempted patience work unheld =>
    exact h.of_declared
      ((same_note bot _).trans (attemptStep_same work ⟨patience, bot⟩)).declared

theorem Reachable.scheduled {bot : EcsBot V J} (reachable : Reachable bot) : Scheduled bot := by
  refine reachable.keeps ?_ (fun input bot next h move => h.move move) ?_ ?_
  · intro start hassembled
    obtain ⟨chains, policy, clock, ledger, rfl⟩ := assembled_idle hassembled
    exact ⟨Cadences.kept_new _, rfl, List.length_map _⟩
  · intro bot chain h
    exact ⟨h.cadences.wake chain, (bot.cadences.kinds_wake chain).trans h.kinds_eq,
      h.observed_length⟩
  · intro bot key evidence h
    exact h.of_declared (same_resolveEffect key evidence bot).declared

def ParkedAt (bot : EcsBot V J) (clock instant : Nat) : Prop :=
  match bot.nextTick clock with
  | .now => False
  | .after span => clock ≤ instant ∧ instant < clock + span
  | .idle => instant = clock

def Observes (input : TickInput V) (moves : Nat → V → Prop) : Prop :=
  ∀ chain value, input.poll chain = .ok (some value) → moves chain value

/-- No tick at that instant finds work, whatever the conditions and the actions answer. -/
def Sound (bot : EcsBot V J) (instant : Nat) (moves : Nat → V → Prop) : Prop :=
  ∀ input, input.clock = instant → Observes input moves → AtRest bot (bot.ticked input)

def entryDue (bot : EcsBot V J) (retry : RetryReading) (transition : Transition V)
    (work : WorkId) : Bool :=
  match transition.entries[work.entry]? with
  | some (.recordingFailed _ _ _ _) => true
  | some .notStarted => !bot.retired ⟨work.chain, work.entry, .attempt⟩
  | some (.definitelyFailed _ _ _) =>
    transition.retryAdmission work.entry retry = some .begin &&
      !bot.retired ⟨work.chain, work.entry, .attempt⟩
  | _ => false

def dueFrom (bot : EcsBot V J) (retry : RetryReading) (transition : Transition V) (chain : Nat) :
    Nat → List ChainEntry → Bool
  | _, [] => false
  | entry, _ :: rest =>
    !walkStops bot.ledger retry transition ⟨chain, entry⟩ &&
      (bot.entryDue retry transition ⟨chain, entry⟩ ||
        dueFrom bot retry transition chain (entry + 1) rest)

def chainDue (bot : EcsBot V J) (retry : RetryReading) (index : Nat) (chain : EcsChain V) : Bool :=
  match bot.ledger.transition index with
  | some transition =>
    transition.value.isSome && dueFrom bot retry transition index 0 chain.entries
  | none => false

def behind (bot : EcsBot V J) (index : Nat) (chain : EcsChain V) (slot : Option V) : Bool :=
  match bot.ledger.transition index with
  | some transition => !transition.hasOpen && admits chain slot transition.value
  | none => false

def opens (bot : EcsBot V J) (index : Nat) (chain : EcsChain V) (value : V) : Bool :=
  (bot.ledger.transition index).isNone || bot.behind index chain (some value)

/-- Nothing is due at that instant: no walk reaches an entry with something to do, no newer
observation waits behind a finished transition, and no polled source moves to a new one. -/
structure NothingDue (bot : EcsBot V J) (instant : Nat) (moves : Nat → V → Prop) : Prop where
  walked : ∀ index chain, bot.chains[index]? = some chain →
    bot.chainDue ⟨bot.policy, instant⟩ index chain = false
  observed : ∀ index chain, bot.chains[index]? = some chain →
    bot.behind index chain (bot.observed[index]?).join = false
  polls : ∀ index chain value, bot.chains[index]? = some chain → chain.cadence = .tick →
    moves index value → bot.opens index chain value = false

end Run

/-- Asked at that reading, no source is due but those polled at every tick, and no deadline
moves. -/
def Asleep (cadences : Cadences) (instant : Nat) (woken : List Bool) : Prop :=
  ∀ chain, (cadences.pollDue chain instant woken).2 = cadences ∧
    ((cadences.pollDue chain instant woken).1 = true →
      ∀ kind, cadences.kinds[chain]? = some kind → kind = .tick)

theorem earliest_le {cadences : Cadences} {chain period due : Nat}
    (hkind : cadences.kinds[chain]? = some (.every period)) (hdue : cadences.due[chain]? = some due) :
    ∃ first, cadences.earliest = some first ∧ first ≤ due := by
  have hpair : (Cadence.every period, due) ∈ cadences.kinds.zip cadences.due :=
    List.mem_of_getElem? (List.getElem?_zip_eq_some.mpr ⟨hkind, hdue⟩)
  unfold Cadences.earliest
  generalize hdues : List.filterMap _ (cadences.kinds.zip cadences.due) = dues
  have hmem : due ∈ dues := by
    rw [← hdues]
    exact List.mem_filterMap.mpr ⟨_, hpair, rfl⟩
  have hfirst := List.min?_eq_some_min (List.ne_nil_of_mem hmem)
  exact ⟨_, hfirst, (List.min?_eq_some_iff.mp hfirst).2 due hmem⟩

theorem nanos_of_lt {instant due : Nat} (hdue : due ≤ 2 ^ 64 - 1) (h : instant < due) :
    nanos instant = instant := by
  unfold nanos
  omega

theorem ParkedAt.deadline [EffectJournal J] {bot : EcsBot V J} {clock instant : Nat}
    (h : ParkedAt bot clock instant) :
    bot.cadences.any = false ∧
      ∀ first, bot.cadences.earliest = some first →
        ∃ deadline, deadline ≤ first ∧ nanos clock < deadline ∧
          instant < clock + (deadline - nanos clock) := by
  unfold ParkedAt nextTick at h
  cases hany : bot.cadences.any with
  | true =>
    rw [hany, if_pos rfl] at h
    cases h
  | false =>
    refine ⟨rfl, ?_⟩
    intro first hfirst
    rw [hany, hfirst, if_neg (by decide)] at h
    dsimp only at h
    cases hretry : (bot.ledger.nextRetry clock).map nanos with
    | none =>
      rw [hretry] at h
      by_cases hpast : first ≤ nanos clock
      · simp [hpast] at h
      · simp only [Option.some_or, if_neg hpast] at h
        exact ⟨first, le_rfl, by omega, h.2⟩
    | some retry =>
      rw [hretry] at h
      by_cases hpast : min first retry ≤ nanos clock
      · simp only [if_pos hpast] at h
      · simp only [if_neg hpast] at h
        exact ⟨min first retry, Nat.min_le_left _ _, by omega, h.2⟩

theorem ParkedAt.asleep [EffectJournal J] {bot : EcsBot V J} {clock instant : Nat}
    (h : ParkedAt bot clock instant) (hkept : bot.cadences.Kept) :
    Asleep bot.cadences.takeWakes.2 instant bot.cadences.takeWakes.1 := by
  obtain ⟨hany, hdeadline⟩ := h.deadline
  intro chain
  unfold Cadences.pollDue
  cases hkind : bot.cadences.takeWakes.2.kinds[chain]? with
  | none => exact ⟨rfl, fun _ kind hkind => by cases hkind⟩
  | some kind =>
    cases kind with
    | tick => exact ⟨rfl, fun _ kind hkind => (Option.some.inj hkind).symm⟩
    | wake =>
      refine ⟨rfl, fun hwoken => ?_⟩
      have hsignal : bot.cadences.pending[chain]? = some true := of_decide_eq_true hwoken
      have hfalse := hkept.quiet hany true (List.mem_of_getElem? hsignal)
      cases hfalse
    | every period =>
      have hlength : chain < bot.cadences.due.length := by
        rw [hkept.due_length]
        exact (List.getElem?_eq_some_iff.mp hkind).1
      have hdue : bot.cadences.due[chain]? = some bot.cadences.due[chain] :=
        List.getElem?_eq_getElem hlength
      obtain ⟨first, hfirst, hle⟩ := earliest_le hkind hdue
      obtain ⟨deadline, hfirstle, hahead, hinstant⟩ := hdeadline first hfirst
      have hbound := hkept.due_le _ (List.mem_of_getElem? hdue)
      have hasleep : nanos instant < bot.cadences.due[chain] := by
        have hclock := nanos_of_lt (hfirstle.trans (hle.trans hbound))
          (show clock < deadline by unfold nanos at hahead; omega)
        rw [nanos_of_lt hbound (by omega)]
        omega
      have hslot : bot.cadences.takeWakes.2.due[chain]? = some bot.cadences.due[chain] := hdue
      simp only [hslot, if_pos hasleep]
      exact ⟨trivial, fun hpolled => by cases hpolled⟩

section Polls

variable {input : TickInput V} {woken : List Bool}

theorem flatten_toChunks_go {α : Type} (width : Nat) (rest : List α) (wave : Array α)
    (done : Array (List α)) :
    (List.toChunks.go width rest wave done).flatten =
      done.toList.flatten ++ wave.toList ++ rest := by
  induction rest generalizing wave done with
  | nil => simp [List.toChunks.go]
  | cons next rest ih =>
    unfold List.toChunks.go
    split
    · rw [ih]
      simp
    · rw [ih]
      simp

theorem flatten_waves (width : Nat) (chains : List Nat) : (waves width chains).flatten = chains := by
  unfold waves List.toChunks
  split
  · rfl
  · simp
  · rw [flatten_toChunks_go]
    simp

def EachTick (bot : EcsBot V J) (chain : Nat) : Prop :=
  ∀ held, bot.chains[chain]? = some held → held.cadence = .tick

theorem EachTick.of_restful {before after : EcsBot V J} {chain : Nat} (h : EachTick after chain)
    (hrest : Restful before after) : EachTick before chain := by
  obtain ⟨noted, rfl, -⟩ := hrest
  exact h

structure Sleeping (woken : List Bool) (bot : EcsBot V J) : Prop where
  kinds_eq : bot.cadences.kinds = bot.chains.map EcsChain.cadence
  asleep : Asleep bot.cadences bot.now woken

theorem Sleeping.of_restful {before after : EcsBot V J} (h : Sleeping woken before)
    (hrest : Restful before after) : Sleeping woken after := by
  obtain ⟨noted, rfl, -⟩ := hrest
  exact ⟨h.kinds_eq, h.asleep⟩

theorem dueIn_asleep {bot : EcsBot V J} (h : Sleeping woken bot) (chains : List Nat) :
    Restful bot (dueIn input woken bot chains).2 ∧
      ∀ chain ∈ (dueIn input woken bot chains).1, EachTick bot chain := by
  induction chains generalizing bot with
  | nil => exact ⟨.refl bot, by simp [dueIn]⟩
  | cons chain rest ih =>
    unfold dueIn
    obtain ⟨hsame, hpolled⟩ := h.asleep chain
    have hbot : { bot with cadences := (bot.cadences.pollDue chain bot.now woken).2 } = bot := by
      rw [hsame]
    dsimp only
    rw [hbot]
    split
    · rename_i hdue
      have heach : EachTick bot chain := by
        intro held hheld
        refine hpolled (Bool.and_eq_true_iff.mp hdue).1 held.cadence ?_
        rw [h.kinds_eq, List.getElem?_map, hheld]
        rfl
      have hnote : Restful bot (bot.note (.polled chain)) := by
        refine restful_note ?_
        cases hheld : bot.chains[chain]? with
        | none => simp only [isWork, hheld, Option.any_none]
        | some held => simp [isWork, hheld, heach held hheld]
      obtain ⟨hrest, hothers⟩ := ih (h.of_restful hnote)
      refine ⟨hnote.trans hrest, ?_⟩
      intro other hmem
      rcases List.mem_cons.mp hmem with rfl | hmem
      · exact heach
      · exact (hothers other hmem).of_restful hnote
    · exact ih h

theorem pollWaves_asleep (start : EcsBot V J) (waves : List (List Nat)) :
    Call.Ends (fun polled => Sleeping woken polled.state ∧ Restful start polled.state)
      (pollWaves input woken waves : Call (Polled (EcsBot V J)) _ _)
      (fun chains polled => Restful start polled.state ∧ ∀ chain ∈ chains, EachTick start chain)
      (fun _ polled => Restful start polled.state) := by
  induction waves with
  | nil => exact .pure fun polled h => ⟨h.2, by simp⟩
  | cons wave rest ih =>
    unfold pollWaves
    refine .bind (Q := fun chains polled => (Sleeping woken polled.state ∧
        Restful start polled.state) ∧ ∀ chain ∈ chains, EachTick start chain)
      (Polled.ends_now fun polled h => ?_) fun chains => .assuming fun heach => ?_
    · obtain ⟨hfurther, heach⟩ := @dueIn_asleep V J input woken _ h.1 wave
      exact ⟨⟨h.1.of_restful hfurther, h.2.trans hfurther⟩,
        fun chain hmem => (heach chain hmem).of_restful h.2⟩
    · split
      · exact ih
      · refine .bind (Polled.ends_awaitNow (fun _ _ h => h) (fun _ _ _ h => h.2) fun _ _ _ h => h.2)
          fun _ => .bind ih fun others => .pure fun last h => ⟨h.1, ?_⟩
        intro chain hmem
        rcases List.mem_append.mp hmem with hmem | hmem
        · exact heach chain hmem
        · exact h.2 chain hmem

end Polls

theorem AtRest.refl (bot : EcsBot V J) : AtRest bot bot :=
  ⟨[], (List.append_nil _).symm, by simp⟩

theorem AtRest.trans {first second third : EcsBot V J} (h : AtRest first second)
    (hchains : second.chains = first.chains) (hrest : AtRest second third) : AtRest first third := by
  obtain ⟨noted, hfirst, hnoted⟩ := h
  obtain ⟨others, hsecond, hothers⟩ := hrest
  refine ⟨noted ++ others, by rw [hsecond, hfirst, List.append_assoc], ?_⟩
  intro happening hmem
  rcases List.mem_append.mp hmem with hmem | hmem
  · exact hnoted happening hmem
  · exact hchains ▸ hothers happening hmem

theorem Restful.atRest {before after : EcsBot V J} (h : Restful before after) :
    AtRest before after := by
  obtain ⟨noted, rfl, hnoted⟩ := h
  exact ⟨noted, rfl, hnoted⟩

theorem Restful.chains_eq {before after : EcsBot V J} (h : Restful before after) :
    after.chains = before.chains := by
  obtain ⟨noted, rfl, -⟩ := h
  rfl

theorem atRest_write (bot : EcsBot V J) (work : WorkId) (f : Ledger V J → Ledger V J) :
    AtRest bot (bot.write work f) := by
  unfold write
  split
  · split
    · exact .refl bot
    · exact ⟨_, rfl, by simp [isWork]⟩
  · exact .refl bot

section Walk

variable {planned bot : EcsBot V J} {ledger : Ledger V J} {transition : Transition V}
  {index entry : Nat} {retry : RetryReading}

/-- A run of the planned walk that reaches an entry finds everything from there on as it was
planned. -/
structure Reaches (planned : EcsBot V J) (transition : Transition V) (index entry : Nat)
    (ledger : Ledger V J) : Prop where
  effects_eq : ledger.effects = planned.ledger.effects
  actions_eq : ledger.actions = planned.ledger.actions
  generation_eq : ledger.generation index = planned.ledger.generation index
  entries_eq : ∀ other, entry ≤ other →
    ledger.entryState ⟨index, other⟩ = transition.entries[other]?
  attempts_eq : ∀ other, ledger.attemptRecord ⟨index, other⟩ = transition.attempts[other]?

theorem Reaches.of_transition (heffects : ledger.effects = planned.ledger.effects)
    (hactions : ledger.actions = planned.ledger.actions)
    (hslot : ledger.transition index = planned.ledger.transition index)
    (h : planned.ledger.transition index = some transition) :
    Reaches planned transition index 0 ledger where
  effects_eq := heffects
  actions_eq := hactions
  generation_eq := by rw [Ledger.generation, hslot, Ledger.generation]
  entries_eq other _ := by rw [Ledger.entryState, hslot, h]; rfl
  attempts_eq other := by rw [Ledger.attemptRecord, hslot, h]; rfl

theorem Reaches.later (h : Reaches planned transition index entry ledger) :
    Reaches planned transition index (entry + 1) ledger :=
  { h with entries_eq := fun other hother => h.entries_eq other (by omega) }

theorem Reaches.set (h : Reaches planned transition index entry ledger) (state : EntryState) :
    Reaches planned transition index (entry + 1) (ledger.setEntry ⟨index, entry⟩ state) where
  effects_eq := h.effects_eq
  actions_eq := h.actions_eq
  generation_eq := by
    rw [← h.generation_eq, Ledger.generation, Ledger.generation, Ledger.transition_setEntry,
      if_pos rfl, Option.map_map]
    rfl
  entries_eq other hother := by
    rw [← h.entries_eq other (by omega)]
    exact ledger.entryState_setEntry_of_ne (by simp; omega) state
  attempts_eq other := by
    rw [← h.attempts_eq other]
    exact ledger.attemptRecord_setEntry _ _ _

theorem Reaches.skip [EffectJournal J] (h : Reaches planned transition index entry ledger) :
    Reaches planned transition index (entry + 1) (ledger.skip ⟨index, entry⟩) := by
  unfold Ledger.skip
  split
  · exact h.set _
  · exact h.set _
  · exact h.later

theorem Reaches.blocked_eq [EffectJournal J] (h : Reaches planned transition index entry ledger)
    (work : WorkId) :
    (ledger.actionOf work).any ledger.effects.blocks =
      (planned.ledger.actionOf work).any planned.ledger.effects.blocks := by
  unfold Ledger.actionOf
  rw [h.effects_eq, h.actions_eq]

theorem Reaches.retired_eq [EffectJournal J] [Hashing]
    (h : Reaches planned transition index entry bot.ledger) (other : Nat) (decision : Decision) :
    bot.retired ⟨index, other, decision⟩ = planned.retired ⟨index, other, .attempt⟩ := by
  unfold retired Ledger.actionOf Step.work
  dsimp only
  rw [h.effects_eq, h.actions_eq, h.generation_eq]

theorem Reaches.retryAdmission_eq [EffectJournal J]
    (h : Reaches planned transition index entry ledger) {held : Transition V}
    (hheld : ledger.transition index = some held) :
    held.retryAdmission entry retry = transition.retryAdmission entry retry := by
  have hentry := h.entries_eq entry le_rfl
  have hattempt := h.attempts_eq entry
  rw [Ledger.entryState, hheld] at hentry
  rw [Ledger.attemptRecord, hheld] at hattempt
  unfold Transition.retryAdmission
  rw [show held.entries[entry]? = transition.entries[entry]? from hentry,
    show held.attempts[entry]? = transition.attempts[entry]? from hattempt]

end Walk

section Steps

variable [EffectJournal J] [Hashing] {input : TickInput V} {retry : RetryReading}

theorem runStep_skip {polled : Polled (EcsBot V J)} {work : WorkId}
    (h : (polled.state.ledger.actionOf work).any polled.state.ledger.effects.blocks = false) :
    runStep input retry ⟨work.chain, work.entry, .skip⟩ polled =
      (.ok (.goOn 0),
        { polled with state := polled.state.write work fun ledger => ledger.skip work }) := by
  have hbranch : runStep input retry ⟨work.chain, work.entry, .skip⟩ polled =
      (if (polled.state.ledger.actionOf work).any polled.state.ledger.effects.blocks then
        pure (.stop none)
      else Polled.now fun bot => (.goOn 0, bot.write work fun ledger => ledger.skip work) :
        Call (Polled (EcsBot V J)) Dropped StepEnd) polled := rfl
  rw [hbranch, h, if_neg (by decide)]
  rfl

theorem runStep_retired {polled : Polled (EcsBot V J)} {work : WorkId}
    (hheld : polled.state.ledger.recordingFailed work = none)
    (hretired : polled.state.retired ⟨work.chain, work.entry, .attempt⟩ = true) :
    runStep input retry ⟨work.chain, work.entry, .attempt⟩ polled =
      (.ok (.goOn 0),
        { polled with state := polled.state.write work fun ledger => ledger.skip work }) := by
  unfold runStep Step.work
  rw [Polled.now_bind]
  dsimp only
  rw [hheld]
  dsimp only
  rw [if_pos hretired]
  rfl

theorem runStep_expired {polled : Polled (EcsBot V J)} {work : WorkId}
    (hheld : polled.state.ledger.recordingFailed work = none)
    (hretired : polled.state.retired ⟨work.chain, work.entry, .attempt⟩ = false)
    (hblocked : (polled.state.ledger.actionOf work).any polled.state.ledger.effects.blocks = false)
    (hexpired : (polled.state.ledger.expireRetry work retry).1 = true) :
    runStep input retry ⟨work.chain, work.entry, .attempt⟩ polled =
      (.ok (.stop none), { polled with
        state := polled.state.write work fun ledger => (ledger.expireRetry work retry).2 }) := by
  unfold runStep Step.work
  rw [Polled.now_bind]
  dsimp only
  rw [hheld]
  dsimp only
  rw [hretired, if_neg (by decide), hblocked, if_neg (by decide), if_pos hexpired]
  rfl

/-- A walk that found nothing due: no work was done, and only its own slot was written. -/
structure Calm (index : Nat) (before after : EcsBot V J) : Prop where
  atRest : AtRest before after
  beside : Beside index before after
  same : Same before after

omit [EffectJournal J] [Hashing] in
theorem Calm.refl (index : Nat) (bot : EcsBot V J) : Calm index bot bot :=
  ⟨.refl bot, .refl index bot, .refl bot⟩

omit [EffectJournal J] [Hashing] in
theorem Calm.trans {index : Nat} {first second third : EcsBot V J} (h : Calm index first second)
    (hrest : Calm index second third) : Calm index first third :=
  ⟨h.atRest.trans h.same.chains_eq hrest.atRest, h.beside.trans hrest.beside,
    h.same.trans hrest.same⟩

omit [EffectJournal J] [Hashing] in
theorem beside_setEntry (bot : EcsBot V J) (work : WorkId) (state : EntryState) :
    Beside work.chain bot { bot with ledger := bot.ledger.setEntry work state } :=
  ⟨rfl, rfl, fun other hother => by
    rw [bot.ledger.transition_setEntry, if_neg hother]⟩

omit [EffectJournal J] [Hashing] in
theorem calm_skip (bot : EcsBot V J) (work : WorkId) :
    Calm work.chain bot (bot.write work fun ledger => ledger.skip work) := by
  refine ⟨atRest_write _ _ _, ?_, same_write _ _ _⟩
  have hledger : Beside work.chain bot { bot with ledger := bot.ledger.skip work } := by
    unfold Ledger.skip
    split
    · exact beside_setEntry bot work _
    · exact beside_setEntry bot work _
    · exact .refl _ bot
  exact ⟨by rw [ledger_write]; exact hledger.effects_eq,
    by rw [ledger_write]; exact hledger.actions_eq,
    fun other hother => by rw [ledger_write]; exact hledger.transition_eq other hother⟩

omit [EffectJournal J] [Hashing] in
theorem calm_expire (bot : EcsBot V J) (work : WorkId) :
    Calm work.chain bot (bot.write work fun ledger => (ledger.expireRetry work retry).2) := by
  refine ⟨atRest_write _ _ _, ?_, same_write _ _ _⟩
  have hledger : Beside work.chain bot
      { bot with ledger := (bot.ledger.expireRetry work retry).2 } := by
    unfold Ledger.expireRetry
    split
    · exact .refl _ bot
    · split
      · exact beside_setEntry bot work _
      · exact .refl _ bot
  exact ⟨by rw [ledger_write]; exact hledger.effects_eq,
    by rw [ledger_write]; exact hledger.actions_eq,
    fun other hother => by rw [ledger_write]; exact hledger.transition_eq other hother⟩

theorem runChain_stop {polled next : Polled (EcsBot V J)} {step : Step} {rest : List Step}
    {failure : Option BotError} (h : runStep input retry step polled = (.ok (.stop failure), next)) :
    runChain input retry (step :: rest) polled = (.ok (0, failure), next) := by
  rw [runChain, Call.bind_of_ok h]
  rfl

theorem runChain_goOn {polled next : Polled (EcsBot V J)} {step : Step} {rest : List Step}
    {fired : Nat} (h : runStep input retry step polled = (.ok (.goOn fired), next)) :
    (runChain input retry (step :: rest) polled).2 = (runChain input retry rest next).2 := by
  rw [runChain, Call.bind_of_ok h]
  exact Call.bind_pure_snd _ _ _

omit [EffectJournal J] [Hashing] in
theorem unblocked_of_walkStops {ledger : Ledger V J} {transition : Transition V} {work : WorkId}
    (hstops : walkStops ledger retry transition work = false)
    (hasks : walkAsks transition work.entry = true) :
    (ledger.actionOf work).any ledger.effects.blocks = false := by
  unfold walkStops at hstops
  unfold walkAsks at hasks
  cases hstate : transition.entries[work.entry]? with
  | none => rw [hstate] at hasks; cases hasks
  | some state =>
    rw [hstate] at hstops
    exact (Bool.or_eq_false_iff.mp hstops).1

omit [Hashing] in
theorem Reaches.expired {planned : EcsBot V J} {ledger : Ledger V J} {transition : Transition V}
    {index entry attempts retryAt : Nat} {cause : Cause}
    (h : Reaches planned transition index entry ledger)
    (hstate : ledger.entryState ⟨index, entry⟩ = some (.definitelyFailed attempts cause retryAt))
    (hwait : transition.retryAdmission entry retry ≠ some .wait)
    (hbegin : transition.retryAdmission entry retry ≠ some .begin) :
    (ledger.expireRetry ⟨index, entry⟩ retry).1 = true := by
  cases hheld : ledger.transition index with
  | none =>
    rw [Ledger.entryState, hheld] at hstate
    cases hstate
  | some held =>
    rw [← h.retryAdmission_eq hheld] at hwait hbegin
    have hentry : held.entries[entry]? = some (.definitelyFailed attempts cause retryAt) := by
      rw [Ledger.entryState, hheld] at hstate
      exact hstate
    unfold Ledger.expireRetry
    dsimp only
    rw [hheld]
    dsimp only
    cases hadmission : held.retryAdmission entry retry with
    | none =>
      unfold Transition.retryAdmission at hadmission
      rw [hentry] at hadmission
      cases hadmission
    | some admission =>
      rw [hentry]
      cases admission with
      | wait => exact absurd hadmission hwait
      | begin => exact absurd hadmission hbegin
      | expired elapsed => rfl

/-- An entry asked with nothing to do is one an acknowledgement retired, or one whose retry
ran out of time. -/
theorem Reaches.asked {planned bot : EcsBot V J} {transition : Transition V} {index entry : Nat}
    (h : Reaches planned transition index entry bot.ledger)
    (hstops : walkStops planned.ledger retry transition ⟨index, entry⟩ = false)
    (hasks : walkAsks transition entry = true)
    (hentry : planned.entryDue retry transition ⟨index, entry⟩ = false) :
    (bot.ledger.recordingFailed ⟨index, entry⟩ = none ∧
        bot.retired ⟨index, entry, .attempt⟩ = true) ∨
      (bot.ledger.recordingFailed ⟨index, entry⟩ = none ∧
        bot.retired ⟨index, entry, .attempt⟩ = false ∧
        (bot.ledger.expireRetry ⟨index, entry⟩ retry).1 = true) := by
  have hstate := h.entries_eq entry le_rfl
  rw [h.retired_eq entry .attempt]
  unfold Ledger.recordingFailed
  rw [hstate]
  unfold walkAsks at hasks
  unfold entryDue at hentry
  unfold walkStops at hstops
  dsimp only at hentry hstops
  cases hfound : transition.entries[entry]? with
  | none => rw [hfound] at hasks; cases hasks
  | some state =>
    rw [hfound] at hasks hentry hstops
    cases state with
    | notStarted => exact .inl ⟨rfl, by simpa using hentry⟩
    | recordingFailed key evidence cause attempts => cases hentry
    | definitelyFailed attempts cause retryAt =>
      cases hretired : planned.retired ⟨index, entry, .attempt⟩ with
      | true => exact .inl ⟨rfl, rfl⟩
      | false =>
        rw [hretired, Bool.not_false, Bool.and_true] at hentry
        rw [Bool.or_eq_false_iff] at hstops
        refine .inr ⟨rfl, rfl, ?_⟩
        have hbegin := of_decide_eq_false hentry
        have hwait := of_decide_eq_false hstops.2
        rw [hfound] at hstate
        exact h.expired hstate hwait hbegin
    | _ => cases hasks

/-- A walk with nothing due does nothing but skip, and give up on what ran out of time. -/
theorem runChain_calm {planned : EcsBot V J} {transition : Transition V} {value : V} {index : Nat}
    (entries : List ChainEntry) (entry : Nat) (polled : Polled (EcsBot V J))
    (hreaches : Reaches planned transition index entry polled.state.ledger)
    (hdue : planned.dueFrom retry transition index entry entries = false) :
    Calm index polled.state (runChain input retry
      (planChain input.check planned.ledger retry transition value index entry entries).1
      polled).2.state := by
  induction entries generalizing entry polled with
  | nil => exact .refl _ _
  | cons declared rest ih =>
    rw [planChain_cons]
    unfold dueFrom at hdue
    split
    · exact .refl _ _
    · rename_i hstops
      have hstops : walkStops planned.ledger retry transition ⟨index, entry⟩ = false := by
        simpa using hstops
      rw [hstops, Bool.not_false, Bool.true_and, Bool.or_eq_false_iff] at hdue
      obtain ⟨hentry, hrest⟩ := hdue
      split
      · rename_i hasks
        have hblocked : (polled.state.ledger.actionOf ⟨index, entry⟩).any
            polled.state.ledger.effects.blocks = false := by
          rw [hreaches.blocked_eq]
          exact unblocked_of_walkStops hstops hasks
        have hskipped := (calm_skip polled.state ⟨index, entry⟩).trans (ih (entry + 1)
          { polled with
            state := polled.state.write ⟨index, entry⟩ fun ledger => ledger.skip ⟨index, entry⟩ }
          (by rw [ledger_write]; exact hreaches.skip) hrest)
        cases hcheck : input.check ⟨index, entry⟩ value with
        | error _ =>
          rw [decided_of_error hcheck]
          exact .refl _ _
        | ok holds =>
          cases holds with
          | false =>
            rw [decided_of_false hcheck, runChain_goOn (runStep_skip hblocked)]
            exact hskipped
          | true =>
            rw [decided_of_true hcheck]
            rcases hreaches.asked hstops hasks hentry with
              ⟨hheld, hretired⟩ | ⟨hheld, hretired, hexpired⟩
            · rw [runChain_goOn (runStep_retired hheld hretired)]
              exact hskipped
            · rw [runChain_stop (runStep_expired hheld hretired hblocked hexpired)]
              exact calm_expire polled.state ⟨index, entry⟩
      · exact ih (entry + 1) polled hreaches.later hrest

def IdleRow (input : TickInput V) (retry : RetryReading) (planned : EcsBot V J) (row : ChainPlan) :
    Prop :=
  row.steps = [] ∨ ∃ held value entries, planned.ledger.transition row.chain = some held ∧
    planned.dueFrom retry held row.chain 0 entries = false ∧
    row.steps = (planChain input.check planned.ledger retry held value row.chain 0 entries).1

theorem runSteps_calm {planned : EcsBot V J} (rows : List ChainPlan) (polled : Polled (EcsBot V J))
    (hsorted : rows.Pairwise fun row later => row.chain < later.chain)
    (hidle : ∀ row ∈ rows, IdleRow input retry planned row)
    (heffects : polled.state.ledger.effects = planned.ledger.effects)
    (hactions : polled.state.ledger.actions = planned.ledger.actions)
    (hslots : ∀ row ∈ rows,
      polled.state.ledger.transition row.chain = planned.ledger.transition row.chain) :
    AtRest polled.state (runSteps input retry rows polled).2.state := by
  induction rows generalizing polled with
  | nil => exact .refl _
  | cons row rest ih =>
    have hcalm : Calm row.chain polled.state (runChain input retry row.steps polled).2.state := by
      rcases hidle row List.mem_cons_self with hnone | ⟨held, value, entries, hheld, hdue, hsteps⟩
      · rw [hnone]
        exact .refl _ _
      · rw [hsteps]
        exact runChain_calm entries 0 polled
          (.of_transition heffects hactions (hslots row List.mem_cons_self) hheld) hdue
    rw [runSteps, Call.bind_apply, Call.bind]
    rcases hrun : runChain input retry row.steps polled with ⟨drop | own, next⟩
    · rw [hrun] at hcalm
      exact hcalm.atRest
    · rw [hrun] at hcalm
      dsimp only
      rw [Call.bind_pure_snd]
      refine hcalm.atRest.trans hcalm.same.chains_eq (ih next (List.pairwise_cons.mp hsorted).2
        (fun later hlater => hidle later (List.mem_cons_of_mem _ hlater))
        (hcalm.beside.effects_eq.trans heffects) (hcalm.beside.actions_eq.trans hactions) ?_)
      intro later hlater
      have hne : later.chain ≠ row.chain := by
        have hlt := (List.pairwise_cons.mp hsorted).1 later hlater
        omega
      rw [hcalm.beside.transition_eq _ hne]
      exact hslots later (List.mem_cons_of_mem _ hlater)

omit [EffectJournal J] in
theorem dueFrom_congr {bot planned : EcsBot V J} {index : Nat}
    (heffects : planned.ledger.effects = bot.ledger.effects)
    (hactions : planned.ledger.actions = bot.ledger.actions)
    (hslot : planned.ledger.transition index = bot.ledger.transition index)
    (transition : Transition V) (entry : Nat) (entries : List ChainEntry) :
    planned.dueFrom retry transition index entry entries =
      bot.dueFrom retry transition index entry entries := by
  have hretired : ∀ other, planned.retired ⟨index, other, .attempt⟩ =
      bot.retired ⟨index, other, .attempt⟩ := by
    intro other
    unfold retired Ledger.actionOf Ledger.generation
    dsimp only
    rw [heffects, hactions, hslot]
  induction entries generalizing entry with
  | nil => rfl
  | cons declared rest ih =>
    unfold dueFrom entryDue
    rw [walkStops_congr hactions heffects, ih (entry + 1), hretired]

end Steps

section Tick

variable [EffectJournal J] [Hashing] {input : TickInput V} {bot : EcsBot V J}
  {clock instant : Nat} {moves : Nat → V → Prop}

omit [Hashing] in
theorem slot_commit {state : EcsBot V J} {index : Nat} (polled : List Nat)
    (h : index < state.observed.length) :
    ((commit input polled state).observed[index]?).join =
      (moved input polled index).or (state.observed[index]?).join := by
  unfold commit
  rw [List.getElem?_mapIdx, List.getElem?_eq_getElem h]
  rfl

theorem NothingDue.standing (h : NothingDue bot instant moves) (hscheduled : Scheduled bot)
    (hobserves : Observes input moves) {state : EcsBot V J} {polled : List Nat}
    (hledger : state.ledger = bot.ledger) (hobserved : state.observed = bot.observed)
    (heach : ∀ chain ∈ polled, EachTick bot chain) {index : Nat} {chain : EcsChain V}
    (hdeclared : bot.chains[index]? = some chain) :
    (commit input polled state).Standing index chain (moved input polled index).isSome := by
  have hlt : index < state.observed.length := by
    rw [hobserved, hscheduled.observed_length]
    exact (List.getElem?_eq_some_iff.mp hdeclared).1
  have hslot := @slot_commit V J _ input state index polled hlt
  have htransition : (commit input polled state).ledger.transition index =
      bot.ledger.transition index := congrArg (fun ledger => ledger.transition index) hledger
  rw [hobserved] at hslot
  have hmoves : ∀ value, moved input polled index = some value →
      chain.cadence = .tick ∧ moves index value := by
    intro value hvalue
    unfold moved at hvalue
    split at hvalue
    · rename_i hpolled
      split at hvalue
      · rename_i found hpoll
        subst hvalue
        exact ⟨heach index hpolled chain hdeclared, hobserves index value hpoll⟩
      · cases hvalue
    · cases hvalue
  cases hheld : bot.ledger.transition index with
  | none =>
    refine standing_of_none (htransition.trans hheld) ?_
    cases hmoved : moved input polled index with
    | none => rfl
    | some value =>
      obtain ⟨hcadence, hmove⟩ := hmoves value hmoved
      have hopens := h.polls index chain value hdeclared hcadence hmove
      rw [opens, hheld] at hopens
      cases hopens
  | some held =>
    refine standing_of_some (htransition.trans hheld) ?_
    rw [hslot]
    cases hmoved : moved input polled index with
    | none =>
      have hbehind := h.observed index chain hdeclared
      rw [behind, hheld] at hbehind
      exact (Bool.and_eq_false_iff.mp hbehind).imp_left fun hopen => by simpa using hopen
    | some value =>
      obtain ⟨hcadence, hmove⟩ := hmoves value hmoved
      have hopens := h.polls index chain value hdeclared hcadence hmove
      rw [opens, behind, hheld, Option.isNone_some, Bool.false_or] at hopens
      exact (Bool.and_eq_false_iff.mp hopens).imp_left fun hopen => by simpa using hopen

theorem NothingDue.act_atRest (h : NothingDue bot instant moves) (hscheduled : Scheduled bot)
    (hobserves : Observes input moves) {polled : Polled (EcsBot V J)} {chains : List Nat}
    (hstate : Restful { bot with now := instant, cadences := bot.cadences.takeWakes.2 }
      polled.state)
    (heach : ∀ chain ∈ chains, EachTick bot chain) (stalled : Option BotError) :
    AtRest polled.state (act input chains stalled polled).2.state := by
  obtain ⟨patience, state⟩ := polled
  obtain ⟨noted, rfl, -⟩ := hstate
  unfold act
  rw [Polled.now_bind, Polled.now_bind]
  dsimp only
  generalize hcommitted : commit input chains { bot with
    now := instant, cadences := bot.cadences.takeWakes.2, history := bot.history ++ noted } =
    committed
  have hledger : committed.ledger = bot.ledger := by rw [← hcommitted]; rfl
  have hchains : committed.chains = bot.chains := by rw [← hcommitted]; rfl
  have hreading : committed.reading = ⟨bot.policy, instant⟩ := by rw [← hcommitted]; rfl
  have hhistory : committed.history = bot.history ++ noted := by rw [← hcommitted]; rfl
  have hplan := @firePlan_standing V J _ input chains committed [] bot.chains hchains
    (fun index chain _ hdeclared => by
      rw [hchains] at hdeclared
      rw [← hcommitted]
      exact h.standing hscheduled hobserves rfl rfl heach hdeclared)
  rw [List.length_nil] at hplan
  generalize committed.firePlan input chains 0 bot.chains = plan at hplan ⊢
  have hidle : ∀ row ∈ plan.1, IdleRow input plan.2.reading plan.2 row := by
    intro row hrow
    have hplanned := hplan.rows row hrow
    obtain ⟨chain, hdeclared⟩ := hplanned.declared
    cases hheld : committed.ledger.transition row.chain with
    | none => exact .inl (hplanned.finished fun held hsome => by rw [hheld] at hsome; cases hsome)
    | some held =>
      cases hretained : held.isRetained with
      | false =>
        refine .inl (hplanned.finished fun other hother => ?_)
        rw [hheld] at hother
        cases hother
        exact hretained
      | true =>
        obtain ⟨hslot, hsteps⟩ := hplanned.retained held chain hheld hretained hdeclared
        unfold walkOf at hsteps
        cases hvalue : held.value with
        | none =>
          rw [hvalue] at hsteps
          exact .inl hsteps
        | some value =>
          rw [hvalue] at hsteps
          refine .inr ⟨held, value, chain.entries, hslot, ?_, hsteps⟩
          have hwalked := h.walked row.chain chain (hchains ▸ hdeclared)
          rw [chainDue, ← hledger, hheld] at hwalked
          dsimp only at hwalked
          rw [hvalue, Option.isSome_some, Bool.true_and] at hwalked
          have hsame := @dueFrom_congr V J _ plan.2.reading bot plan.2 row.chain
            (hplan.effects_eq.trans (by rw [hledger]))
            (hplan.actions_eq.trans (by rw [hledger])) (by rw [hslot, ← hheld, hledger])
            held 0 chain.entries
          rw [hsame, hplan.reading_eq, hreading]
          exact hwalked
  have hrun := runSteps_calm plan.1 ⟨patience, plan.2⟩ hplan.sorted hidle rfl rfl fun _ _ => rfl
  obtain ⟨others, hothers, hquiet⟩ := hrun
  rw [Polled.bind_now_snd]
  refine ⟨others, ?_, ?_⟩
  · rw [hothers, hplan.history_eq, hhistory]
  · intro happening hmem
    have hnone := hquiet happening hmem
    rw [hplan.chains_eq, hchains] at hnone
    exact hnone

omit [Hashing] in
theorem pollSources_parked (hscheduled : Scheduled bot) (hparked : ParkedAt bot clock instant) :
    Call.Ends (fun polled => polled.state = { bot with now := instant })
      (pollSources input : Call (Polled (EcsBot V J)) _ _)
      (fun chains polled =>
        Restful { bot with now := instant, cadences := bot.cadences.takeWakes.2 } polled.state ∧
          ∀ chain ∈ chains, EachTick bot chain)
      (fun _ polled =>
        Restful { bot with now := instant, cadences := bot.cadences.takeWakes.2 } polled.state) := by
  unfold pollSources
  refine .bind (Q := fun woken polled => polled.state =
      { bot with now := instant, cadences := bot.cadences.takeWakes.2 } ∧
        woken = bot.cadences.takeWakes.1) (Polled.ends_now fun polled h => ?_)
    fun woken => .assuming fun hwoken => ?_
  · rw [h]
    exact ⟨rfl, rfl⟩
  · refine .bind (Q := fun _ polled => polled.state =
      { bot with now := instant, cadences := bot.cadences.takeWakes.2 })
      (Polled.ends_now fun polled h => h) fun count => ?_
    refine (pollWaves_asleep { bot with now := instant, cadences := bot.cadences.takeWakes.2 }
      _).mono ?_ (fun _ _ h => h) fun _ _ h => h
    intro polled hstate
    rw [hstate, hwoken]
    exact ⟨⟨hscheduled.kinds_eq, hparked.asleep hscheduled.cadences⟩, .refl _⟩

theorem NothingDue.sound (h : NothingDue bot instant moves) (hscheduled : Scheduled bot)
    (hparked : ParkedAt bot clock instant) : Sound bot instant moves := by
  intro input hclock hobserves
  unfold ticked tick
  rw [Polled.now_bind]
  dsimp only
  cases input.settled with
  | error _ => exact .refl bot
  | ok _ =>
    dsimp only
    have hends := @pollSources_parked V J _ input bot clock instant hscheduled hparked
    rw [Call.bind_apply, Call.bind, hclock]
    rcases hpolls : pollSources input ⟨input.patience, { bot with now := instant }⟩ with
      ⟨drop | chains, next⟩
    · exact (hends.error rfl hpolls).atRest
    · obtain ⟨hrest, heach⟩ := hends.ok rfl hpolls
      have hact := h.act_atRest hscheduled hobserves hrest heach
      dsimp only
      cases pollError input chains with
      | none => exact hrest.atRest.trans hrest.chains_eq (hact none)
      | some error =>
        dsimp only
        split
        · exact hrest.atRest.trans hrest.chains_eq (hact _)
        · exact hrest.atRest

end Tick

end EcsBot

end LogicalWorks.Ecs
