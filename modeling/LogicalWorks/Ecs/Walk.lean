import LogicalWorks.Ecs.Slots

/-! The walk of a chain: what planning it reads, where it stops, and what admitting its
newest observation does to its slot. -/
namespace LogicalWorks.Ecs

namespace EcsBot

variable {V J : Type}

def walkStops (ledger : Ledger V J) (retry : RetryReading) (transition : Transition V)
    (work : WorkId) : Bool :=
  match transition.entries[work.entry]? with
  | none => false
  | some state =>
    (ledger.actionOf work).any ledger.effects.blocks ||
      match state with
      | .abandoned _ _ | .unrecorded | .outcomeUnknown _ _ => true
      | .definitelyFailed _ _ _ => transition.retryAdmission work.entry retry = some .wait
      | .notStarted | .recordingFailed _ _ _ _ | .succeeded | .skipped => false

def walkAsks (transition : Transition V) (entry : Nat) : Bool :=
  match transition.entries[entry]? with
  | some .notStarted | some (.recordingFailed _ _ _ _) | some (.definitelyFailed _ _ _) => true
  | _ => false

theorem decided_of_error {check : WorkId → V → Except BotError Bool} {work : WorkId} {value : V}
    {error : BotError} (h : check work value = .error error)
    (others : List Step × Option BotError) :
    decided check work value others = ([], some error) := by
  unfold decided
  rw [h]

theorem decided_of_false {check : WorkId → V → Except BotError Bool} {work : WorkId} {value : V}
    (h : check work value = .ok false) (others : List Step × Option BotError) :
    decided check work value others =
      (⟨work.chain, work.entry, .skip⟩ :: others.1, others.2) := by
  unfold decided
  rw [h]
  rfl

theorem decided_of_true {check : WorkId → V → Except BotError Bool} {work : WorkId} {value : V}
    (h : check work value = .ok true) (others : List Step × Option BotError) :
    decided check work value others =
      (⟨work.chain, work.entry, .attempt⟩ :: others.1, others.2) := by
  unfold decided
  rw [h]
  rfl

theorem planChain_cons (check : WorkId → V → Except BotError Bool) (ledger : Ledger V J)
    (retry : RetryReading) (transition : Transition V) (value : V) (chain entry : Nat)
    (declared : ChainEntry) (rest : List ChainEntry) :
    planChain check ledger retry transition value chain entry (declared :: rest) =
      if walkStops ledger retry transition ⟨chain, entry⟩ then ([], none)
      else if walkAsks transition entry then
        decided check ⟨chain, entry⟩ value
          (planChain check ledger retry transition value chain (entry + 1) rest)
      else planChain check ledger retry transition value chain (entry + 1) rest := by
  conv_lhs => unfold planChain
  unfold walkStops walkAsks
  cases transition.entries[entry]? with
  | none => simp
  | some state =>
    cases hblocked : (ledger.actionOf ⟨chain, entry⟩).any ledger.effects.blocks with
    | true => simp
    | false =>
      cases state with
      | definitelyFailed attempts cause retryAt =>
        by_cases hwait : transition.retryAdmission entry retry = some .wait
        · simp [hwait]
        · simp [hwait]
      | _ => simp

theorem walkStops_congr {ledger other : Ledger V J} (hactions : other.actions = ledger.actions)
    (heffects : other.effects = ledger.effects) (retry : RetryReading)
    (transition : Transition V) (work : WorkId) :
    walkStops other retry transition work = walkStops ledger retry transition work := by
  unfold walkStops Ledger.actionOf
  rw [hactions, heffects]

theorem planChain_congr {ledger other : Ledger V J} (hactions : other.actions = ledger.actions)
    (heffects : other.effects = ledger.effects) (check : WorkId → V → Except BotError Bool)
    (retry : RetryReading) (transition : Transition V) (value : V) (chain entry : Nat)
    (entries : List ChainEntry) :
    planChain check other retry transition value chain entry entries =
      planChain check ledger retry transition value chain entry entries := by
  induction entries generalizing entry with
  | nil => rfl
  | cons declared rest ih =>
    rw [planChain_cons, planChain_cons, walkStops_congr hactions heffects, ih]

theorem walkOf_congr {ledger other : Ledger V J} (hactions : other.actions = ledger.actions)
    (heffects : other.effects = ledger.effects) (check : WorkId → V → Except BotError Bool)
    (retry : RetryReading) (transition : Transition V) (index : Nat) (chain : EcsChain V) :
    walkOf check other retry transition index chain =
      walkOf check ledger retry transition index chain := by
  unfold walkOf
  cases transition.value with
  | none => rfl
  | some value => exact planChain_congr hactions heffects check retry transition value index 0 _

theorem planChain_of_finished {transition : Transition V} (h : transition.isRetained = false)
    (check : WorkId → V → Except BotError Bool) (ledger : Ledger V J) (retry : RetryReading)
    (value : V) (chain entry : Nat) (entries : List ChainEntry) :
    (planChain check ledger retry transition value chain entry entries).1 = [] := by
  induction entries generalizing entry with
  | nil => rfl
  | cons declared rest ih =>
    rw [planChain_cons]
    split
    · rfl
    · have hasks : walkAsks transition entry = false := by
        unfold walkAsks
        cases hstate : transition.entries[entry]? with
        | none => rfl
        | some state =>
          have hdone := List.any_eq_false.mp h state (List.mem_of_getElem? hstate)
          cases state <;> first | rfl | simp [EntryState.isOpen] at hdone
      rw [hasks, if_neg (by decide)]
      exact ih (entry + 1)

def rowOf (input : TickInput V) (bot : EcsBot V J) (transition : Transition V) (index : Nat)
    (chain : EcsChain V) : ChainPlan :=
  ⟨index, (walkOf input.check bot.ledger bot.reading transition index chain).1,
    (walkOf input.check bot.ledger bot.reading transition index chain).2⟩

def resumedInto (bot : EcsBot V J) (index : Nat) (chain : EcsChain V) (held : Transition V)
    (value : V) : Transition V :=
  .resumed (chain.identify value) ((bot.revisions[index]?).getD 0) held (some value)

def openedFor (bot : EcsBot V J) (index : Nat) (chain : EcsChain V) (value : V) : Transition V :=
  .opened (chain.identify value) ((bot.revisions[index]?).getD 0) chain.entries.length (some value)

section Fire

variable [Hashing] {input : TickInput V} {moving : Bool} {bot : EcsBot V J} {index : Nat}
  {chain : EcsChain V}

theorem fireChain_idle (h : bot.ledger.transition index = none)
    (hstill : (moving && ((bot.observed[index]?).join).isSome) = false) :
    bot.fireChain input moving index chain = (⟨index, [], none⟩, bot) := by
  have hkind : bot.admitKind chain index moving = .idle := by
    unfold admitKind
    rw [h]
    dsimp only
    rw [hstill, if_neg (by decide)]
  unfold fireChain resume
  rw [hkind]

theorem fireChain_held {held : Transition V} (h : bot.ledger.transition index = some held)
    (hkeep : held.hasOpen = true ∨ admits chain (bot.observed[index]?).join held.value = false) :
    bot.fireChain input moving index chain =
      (rowOf input bot held index chain, bot.place index held) := by
  have hkind : bot.admitKind chain index moving = .keep := by
    unfold admitKind
    rw [h]
    dsimp only
    rcases hkeep with hopen | hsame
    · rw [if_pos hopen]
    · split
      · rfl
      · rw [hsame, if_neg (by decide)]
  unfold fireChain resume
  rw [hkind, h]
  rfl

theorem fireChain_resumed {held : Transition V} {value : V}
    (h : bot.ledger.transition index = some held) (hdone : held.hasOpen = false)
    (hslot : (bot.observed[index]?).join = some value)
    (hadmits : admits chain (some value) held.value = true) :
    bot.fireChain input moving index chain =
      (rowOf input bot (bot.resumedInto index chain held value) index chain,
        ((bot.takeObserved index).2.note (.resumed index)).place index
          (bot.resumedInto index chain held value)) := by
  have hkind : bot.admitKind chain index moving = .resume := by
    unfold admitKind
    rw [h]
    dsimp only
    rw [hdone, hslot, hadmits]
    rfl
  unfold fireChain resume admittedInput
  rw [hkind, h]
  simp only [hslot, takeObserved]
  rfl

/-- A chain that holds nothing opens a generation for what its source just moved to. -/
theorem fireChain_opened {value : V} (h : bot.ledger.transition index = none)
    (hmoving : moving = true) (hslot : (bot.observed[index]?).join = some value) :
    bot.fireChain input moving index chain =
      (rowOf input bot (bot.openedFor index chain value) index chain,
        ((bot.takeObserved index).2.note (.opened index)).place index
          (bot.openedFor index chain value)) := by
  have hkind : bot.admitKind chain index moving = .open := by
    unfold admitKind
    rw [h, hmoving, hslot]
    rfl
  unfold fireChain resume admittedInput
  rw [hkind, h]
  simp only [hslot, takeObserved]
  rfl

end Fire

structure Beside (index : Nat) (before after : EcsBot V J) : Prop where
  effects_eq : after.ledger.effects = before.ledger.effects
  actions_eq : after.ledger.actions = before.ledger.actions
  transition_eq : ∀ other, other ≠ index →
    after.ledger.transition other = before.ledger.transition other

theorem Beside.refl (index : Nat) (bot : EcsBot V J) : Beside index bot bot :=
  ⟨rfl, rfl, fun _ _ => rfl⟩

theorem Beside.trans {index : Nat} {first second third : EcsBot V J} (h : Beside index first second)
    (hrest : Beside index second third) : Beside index first third :=
  ⟨hrest.effects_eq.trans h.effects_eq, hrest.actions_eq.trans h.actions_eq,
    fun other hother => (hrest.transition_eq other hother).trans (h.transition_eq other hother)⟩

theorem beside_place (bot : EcsBot V J) (index : Nat) (transition : Transition V) :
    Beside index bot (bot.place index transition) := by
  unfold place
  split
  · exact ⟨rfl, rfl, fun other hother => bot.ledger.transition_put_of_ne hother _⟩
  · exact ⟨rfl, rfl, fun other hother => bot.ledger.transition_put_of_ne hother _⟩

theorem ledger_write (bot : EcsBot V J) (work : WorkId) (f : Ledger V J → Ledger V J) :
    (bot.write work f).ledger = f bot.ledger := by
  unfold write
  split
  · split <;> rfl
  · rfl

theorem observed_place_of_ne (bot : EcsBot V J) {index other : Nat} (h : other ≠ index)
    (transition : Transition V) : (bot.place index transition).observed[other]? = bot.observed[other]? := by
  unfold place
  split
  · rfl
  · rw [List.getElem?_modify]
    simp [Ne.symm h]

theorem place_retained {bot : EcsBot V J} {index : Nat} {held : Transition V}
    (h : bot.ledger.transition index = some held) (hretained : held.isRetained = true) :
    bot.place index held = bot := by
  unfold place
  rw [if_pos hretained, Ledger.put_of_transition h]

/-- A chain admits nothing: what it holds is still open, or nothing newer is there for it. -/
def Standing (bot : EcsBot V J) (index : Nat) (chain : EcsChain V) (moving : Bool) : Prop :=
  match bot.ledger.transition index with
  | some held =>
    held.hasOpen = true ∨ admits chain (bot.observed[index]?).join held.value = false
  | none => (moving && ((bot.observed[index]?).join).isSome) = false

theorem standing_of_none {bot : EcsBot V J} {index : Nat} {chain : EcsChain V} {moving : Bool}
    (h : bot.ledger.transition index = none)
    (hstill : (moving && ((bot.observed[index]?).join).isSome) = false) :
    bot.Standing index chain moving := by
  unfold Standing
  rw [h]
  exact hstill

theorem standing_of_some {bot : EcsBot V J} {index : Nat} {chain : EcsChain V} {moving : Bool}
    {held : Transition V} (h : bot.ledger.transition index = some held)
    (hkeep : held.hasOpen = true ∨ admits chain (bot.observed[index]?).join held.value = false) :
    bot.Standing index chain moving := by
  unfold Standing
  rw [h]
  exact hkeep

section Plan

variable [Hashing] {input : TickInput V}

structure PlannedRow (input : TickInput V) (bot planned : EcsBot V J) (row : ChainPlan) : Prop where
  declared : ∃ chain, bot.chains[row.chain]? = some chain
  retained : ∀ held chain, bot.ledger.transition row.chain = some held → held.isRetained = true →
    bot.chains[row.chain]? = some chain →
    planned.ledger.transition row.chain = some held ∧
      row.steps = (walkOf input.check planned.ledger planned.reading held row.chain chain).1
  finished : (∀ held, bot.ledger.transition row.chain = some held → held.isRetained = false) →
    row.steps = []

structure PlannedFrom (input : TickInput V) (bot : EcsBot V J) (index : Nat)
    (plan : List ChainPlan × EcsBot V J) : Prop where
  history_eq : plan.2.history = bot.history
  reading_eq : plan.2.reading = bot.reading
  chains_eq : plan.2.chains = bot.chains
  effects_eq : plan.2.ledger.effects = bot.ledger.effects
  actions_eq : plan.2.ledger.actions = bot.ledger.actions
  before_eq : ∀ other, other < index →
    plan.2.ledger.transition other = bot.ledger.transition other
  sorted : plan.1.Pairwise fun row later => row.chain < later.chain
  bounded : ∀ row ∈ plan.1, index ≤ row.chain
  present : ∀ other chain, index ≤ other → bot.chains[other]? = some chain →
    ∃ row ∈ plan.1, row.chain = other
  rows : ∀ row ∈ plan.1, PlannedRow input bot plan.2 row

theorem fireChain_standing {bot : EcsBot V J} {index : Nat} {chain : EcsChain V} {moving : Bool}
    (h : bot.Standing index chain moving) (hdeclared : bot.chains[index]? = some chain) :
    (bot.fireChain input moving index chain).1.chain = index ∧
    (bot.fireChain input moving index chain).2.history = bot.history ∧
    Beside index bot (bot.fireChain input moving index chain).2 ∧
    (∀ other, other ≠ index →
      (bot.fireChain input moving index chain).2.observed[other]? = bot.observed[other]?) ∧
    PlannedRow input bot (bot.fireChain input moving index chain).2
      (bot.fireChain input moving index chain).1 := by
  unfold Standing at h
  cases hslot : bot.ledger.transition index with
  | none =>
    rw [hslot] at h
    rw [fireChain_idle hslot h]
    refine ⟨rfl, rfl, .refl index bot, fun _ _ => rfl, ⟨⟨chain, hdeclared⟩, ?_, fun _ => rfl⟩⟩
    intro held other hheld
    rw [hslot] at hheld
    cases hheld
  | some held =>
    rw [hslot] at h
    rw [fireChain_held hslot h]
    refine ⟨rfl, ?_, beside_place bot index held,
      fun other hother => bot.observed_place_of_ne hother held, ⟨⟨chain, hdeclared⟩, ?_, ?_⟩⟩
    · unfold place
      split <;> rfl
    · intro other found hother hretained hfound
      rw [rowOf, hslot] at hother
      cases hother
      rw [rowOf, hdeclared] at hfound
      cases hfound
      rw [place_retained hslot hretained]
      exact ⟨hslot, rfl⟩
    · intro hfinished
      have hdone := hfinished held hslot
      unfold rowOf walkOf
      cases held.value with
      | none => rfl
      | some value => exact planChain_of_finished hdone _ _ _ _ _ _ _

omit [Hashing] in
theorem PlannedRow.of_later {bot fired planned : EcsBot V J} {row : ChainPlan}
    (h : PlannedRow input bot fired row)
    (heffects : planned.ledger.effects = fired.ledger.effects)
    (hactions : planned.ledger.actions = fired.ledger.actions)
    (hreading : planned.reading = fired.reading)
    (hslot : planned.ledger.transition row.chain = fired.ledger.transition row.chain) :
    PlannedRow input bot planned row where
  declared := h.declared
  retained held chain hheld hretained hchain := by
    obtain ⟨hfired, hsteps⟩ := h.retained held chain hheld hretained hchain
    refine ⟨hslot.trans hfired, ?_⟩
    rw [hsteps, hreading, walkOf_congr hactions heffects]
  finished := h.finished

omit [Hashing] in
theorem PlannedRow.of_earlier {bot fired planned : EcsBot V J} {row : ChainPlan}
    (h : PlannedRow input fired planned row) (hchains : fired.chains = bot.chains)
    (hslot : fired.ledger.transition row.chain = bot.ledger.transition row.chain) :
    PlannedRow input bot planned row where
  declared := hchains ▸ h.declared
  retained held chain hheld hretained hchain :=
    h.retained held chain (hslot.trans hheld) hretained (by rw [hchains]; exact hchain)
  finished hfinished := h.finished fun held hheld => hfinished held (hslot.symm.trans hheld)

/-- A plan that admits nothing changes no slot but to empty the finished ones. -/
theorem firePlan_standing (polled : List Nat) (bot : EcsBot V J) (before chains : List (EcsChain V))
    (hchains : bot.chains = before ++ chains)
    (hstanding : ∀ index chain, before.length ≤ index → bot.chains[index]? = some chain →
      bot.Standing index chain (moved input polled index).isSome) :
    PlannedFrom input bot before.length (bot.firePlan input polled before.length chains) := by
  induction chains generalizing bot before with
  | nil =>
    refine ⟨rfl, rfl, rfl, rfl, rfl, fun _ _ => rfl, .nil, by simp [firePlan], ?_,
      by simp [firePlan]⟩
    intro other chain hother hchain
    rw [hchains, List.append_nil] at hchain
    have hlt := (List.getElem?_eq_some_iff.mp hchain).1
    omega
  | cons chain rest ih =>
    have hdeclared : bot.chains[before.length]? = some chain := by simp [hchains]
    obtain ⟨hindex, hhistory, hbeside, hobserved, hrow⟩ := @fireChain_standing V J _ input _ _ _ _
      (hstanding before.length chain le_rfl hdeclared) hdeclared
    have hfired := declared_fireChain input (moved input polled before.length).isSome
      before.length chain bot
    unfold firePlan
    generalize bot.fireChain input (moved input polled before.length).isSome before.length chain =
      fired at hindex hhistory hbeside hobserved hrow hfired
    dsimp only
    have hrest := ih fired.2 (before ++ [chain]) (by simp [hfired.chains_eq, hchains]) (by
      intro other held hother hheld
      rw [List.length_append, List.length_singleton] at hother
      have hne : other ≠ before.length := by omega
      have hsame := hstanding other held (by omega) (by rw [← hfired.chains_eq]; exact hheld)
      unfold Standing at hsame ⊢
      rw [hbeside.transition_eq other hne, hobserved other hne]
      exact hsame)
    rw [List.length_append, List.length_singleton] at hrest
    generalize fired.2.firePlan input polled (before.length + 1) rest = others at hrest
    refine ⟨hrest.history_eq.trans hhistory, hrest.reading_eq.trans hfired.reading_eq,
      hrest.chains_eq.trans hfired.chains_eq, hrest.effects_eq.trans hbeside.effects_eq,
      hrest.actions_eq.trans hbeside.actions_eq, ?_, ?_, ?_, ?_, ?_⟩
    · intro other hother
      rw [hrest.before_eq other (by omega), hbeside.transition_eq other (by omega)]
    · refine List.pairwise_cons.mpr ⟨?_, hrest.sorted⟩
      intro row hmem
      have hbound := hrest.bounded row hmem
      omega
    · intro row hmem
      rcases List.mem_cons.mp hmem with rfl | hmem
      · exact hindex.ge
      · have hbound := hrest.bounded row hmem
        omega
    · intro other held hother hheld
      rcases hother.eq_or_lt with rfl | hlt
      · exact ⟨fired.1, List.mem_cons_self, hindex⟩
      · obtain ⟨row, hmem, hrow⟩ := hrest.present other held hlt
          (by rw [hfired.chains_eq]; exact hheld)
        exact ⟨row, List.mem_cons_of_mem _ hmem, hrow⟩
    · intro row hmem
      rcases List.mem_cons.mp hmem with rfl | hmem
      · exact hrow.of_later hrest.effects_eq hrest.actions_eq hrest.reading_eq
          (hrest.before_eq _ (by omega))
      · have hbound := hrest.bounded row hmem
        exact (hrest.rows row hmem).of_earlier hfired.chains_eq
          (hbeside.transition_eq _ (by omega))

end Plan

end EcsBot

end LogicalWorks.Ecs
