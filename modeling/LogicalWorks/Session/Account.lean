import LogicalWorks.Session.Runner

/-! What a session has spent: the steps it charged and the bytes it keeps, in every state a run
comes to. -/
namespace LogicalWorks.Session.Runner

open Fallible

variable {R J : Type}

def TranscriptEntry.cost (entry : TranscriptEntry) : Nat :=
  bytes entry.text + bytes entry.pathNode + bytes entry.role

def held (session : Session R J) : Nat :=
  (session.transcript.map TranscriptEntry.cost).sum + (session.visited.map bytes).sum

/-- Where the cursor stands between two charges. `unspent` steps were charged for nodes not yet
visited, and `owed` bytes for what is not yet kept. -/
structure Books (R : Type) where
  budget : Nat
  steps : Nat
  unspent : Nat
  owed : Nat
  resolver : R

/-- The session's counters say what it holds and what is still to be written. -/
structure Kept (books : Books R) (session : Session R J) : Prop where
  budget : session.flow.bounds.budget = books.budget
  steps : session.steps = books.steps
  afford : books.steps ≤ books.budget
  retained : session.retained = held session + books.owed
  within : session.retained ≤ session.limits.get .session
  ceiling : session.limits.get .session ≤ ResourceLimits.shipped.get .session
  records : ∀ entry ∈ session.transcript, bytes entry.text ≤ session.limits.get .record
  visits : session.visited.length + books.unspent ≤ books.steps
  outcome : session.current = none → session.terminal.isSome
  resolver : session.resolver = books.resolver

structure Accounted (session : Session R J) : Prop where
  retained : session.retained = held session
  within : session.retained ≤ session.limits.get .session
  records : ∀ entry ∈ session.transcript, bytes entry.text ≤ session.limits.get .record
  budget : session.steps ≤ session.flow.bounds.budget
  visits : session.visited.length ≤ session.steps

def Rests (session : Session R J) : Prop :=
  session.terminal.isSome ∨ ∃ node var options routes,
    session.current = some node ∧ session.flow.node node = some (.ask var options routes)

variable {seams : Seams R J} {books : Books R} {resolver : R}

abbrev Keeps {α : Type} (books : Books R) (act : Action R J α) : Prop :=
  Holds (Kept { books with owed := 0 }) act (fun _ => Kept { books with owed := 0 })
    (fun _ => Kept { books with owed := 0 })

/-- Two states differ only in what was recorded and receipted between them. -/
structure Fixed (session state : Session R J) : Prop where
  flow : state.flow = session.flow
  current : state.current = session.current
  terminal : state.terminal = session.terminal
  limits : state.limits = session.limits
  scope : state.scope = session.scope
  steps : state.steps = session.steps
  resolver : state.resolver = session.resolver

theorem Fixed.refl (session : Session R J) : Fixed session session :=
  ⟨rfl, rfl, rfl, rfl, rfl, rfl, rfl⟩

theorem Fixed.trans {first second third : Session R J} (h : Fixed first second)
    (h' : Fixed second third) : Fixed first third where
  flow := h'.flow.trans h.flow
  current := h'.current.trans h.current
  terminal := h'.terminal.trans h.terminal
  limits := h'.limits.trans h.limits
  scope := h'.scope.trans h.scope
  steps := h'.steps.trans h.steps
  resolver := h'.resolver.trans h.resolver

structure Writes (books : Books R) (act : Action R J Unit) : Prop where
  run : ∀ session, Kept { books with owed := 0 } session →
    Holds (· = session) act (fun _ state => Kept { books with owed := 0 } state ∧ Fixed session state)
      (fun _ state => Kept { books with owed := 0 } state ∧ Fixed session state)

theorem Writes.keeps {act : Action R J Unit} (h : Writes books act) : Keeps books act :=
  Holds.of_each fun session hkept =>
    (h.run session hkept).conseq (fun _ => id) (fun _ _ hstate => hstate.1)
      (fun _ _ hstate => hstate.1)

theorem Keeps.at {α : Type} {act : Action R J α} (h : Keeps books act) {session : Session R J}
    (hkept : Kept { books with owed := 0 } session) :
    Holds (· = session) act (fun _ => Kept { books with owed := 0 })
      (fun _ => Kept { books with owed := 0 }) :=
  h.conseq (fun _ hstate => hstate ▸ hkept) (fun _ _ => id) (fun _ _ => id)

theorem Kept.accounted {session : Session R J} (h : Kept books session) (howed : books.owed = 0) :
    Accounted session where
  retained := by rw [h.retained, howed, Nat.add_zero]
  within := h.within
  records := h.records
  budget := by rw [h.steps, h.budget]; exact h.afford
  visits := by
    rw [h.steps]
    exact Nat.le_trans (Nat.le_add_right _ _) h.visits

theorem checkedAdd_eq_some {left right total : Nat} (h : checkedAdd left right = some total) :
    total = left + right := by
  unfold checkedAdd at h
  split at h
  · cases h
    rfl
  · cases h

theorem chargeStep_keeps {session : Session R J} (hkept : Kept books session) :
    Holds (· = session) chargeStep
      (fun _ state => Kept { books with steps := books.steps + 1, unspent := books.unspent + 1 } state ∧
        state = { session with steps := session.steps + 1 })
      (fun _ => Kept books) := by
  refine Holds.read fun state hstate => ?_
  subst hstate
  have here : ∀ other, other = state → Kept books other := by
    rintro other rfl
    exact hkept
  cases hadd : checkedAdd state.steps 1 with
  | none => exact Holds.throw here
  | some attempted =>
    have htotal := checkedAdd_eq_some hadd
    subst htotal
    change Holds _ (if _ then _ else _) _ _
    split
    · exact Holds.throw here
    · rename_i hafford
      rw [hkept.budget, hkept.steps, not_lt] at hafford
      refine Holds.set fun _ _ => ⟨{ hkept with
        steps := congrArg (· + 1) hkept.steps
        afford := hafford
        visits := ?_ }, rfl⟩
      have hvisits := hkept.visits
      simp only
      omega

theorem chargeRetention_keeps {owed : Nat} {session : Session R J}
    (hkept : Kept { books with owed := 0 } session) :
    Holds (· = session) (chargeRetention owed)
      (fun _ state => Kept { books with owed := owed } state ∧ owed < usizeMax ∧
        state = { session with retained := session.retained + owed })
      (fun _ state => Kept { books with owed := 0 } state ∧ Fixed session state) := by
  refine Holds.read fun state hstate => ?_
  subst hstate
  have here : ∀ other, other = state → Kept { books with owed := 0 } other ∧ Fixed state other := by
    rintro other rfl
    exact ⟨hkept, .refl _⟩
  cases hadd : checkedAdd state.retained owed with
  | none => exact Holds.throw here
  | some total =>
    have htotal := checkedAdd_eq_some hadd
    subst htotal
    change Holds _ (if _ then _ else _) _ _
    split
    · exact Holds.throw here
    · rename_i hwithin
      rw [not_lt] at hwithin
      have hceiling := Nat.le_trans hwithin hkept.ceiling
      refine Holds.set fun _ _ => ⟨{ hkept with retained := ?_, within := hwithin }, ?_, rfl⟩
      · change state.retained + owed = held state + owed
        rw [hkept.retained, Nat.add_zero]
      · have hroom : ResourceLimits.shipped.get .session < usizeMax := by decide
        omega

theorem saturatingAdd_eq {left right : Nat} (h : saturatingAdd left right < usizeMax) :
    saturatingAdd left right = left + right := by
  unfold saturatingAdd at h ⊢
  omega

theorem record_writes (node role text : Text) : Writes books (record seams node role text) := by
  constructor
  intro session hkept
  refine Holds.read fun state hstate => ?_
  subst hstate
  change Holds _ (if _ then _ else _) _ _
  split
  · refine Holds.throw ?_
    rintro other rfl
    exact ⟨hkept, .refl _⟩
  · rename_i hrecord
    rw [not_lt] at hrecord
    refine (chargeRetention_keeps hkept).bind fun _ => Holds.modify ?_
    rintro other ⟨hother, hcost, rfl⟩
    have houter := saturatingAdd_eq hcost
    have hinner := saturatingAdd_eq (Nat.lt_of_le_of_lt (houter ▸ Nat.le_add_right _ _) hcost)
    have hexact := houter.trans (congrArg (· + bytes role) hinner)
    refine ⟨{ hother with retained := ?_, records := ?_ }, ⟨rfl, rfl, rfl, rfl, rfl, rfl, rfl⟩⟩
    · have hretained := hkept.retained
      simp only [held, List.map_append, List.sum_append, List.map_cons, List.map_nil,
        List.sum_cons, List.sum_nil, TranscriptEntry.cost, hexact] at hretained ⊢
      omega
    · intro entry hentry
      rcases List.mem_append.mp hentry with hold | hnew
      · exact hother.records entry hold
      · rw [List.mem_singleton] at hnew
        subst hnew
        exact hrecord

theorem recordPrompt_writes (node : Text) (options : List Text) :
    Writes books (recordPrompt seams node options) := by
  constructor
  intro session hkept
  refine Holds.read fun state hstate => ?_
  subst hstate
  change Holds _ (if _ then _ else _) _ _
  split
  · refine Holds.throw ?_
    rintro other rfl
    exact ⟨hkept, .refl _⟩
  · exact (record_writes _ _ _).run _ hkept

theorem render_keeps (node template : Text) :
    Keeps books (render node template : Action R J Text) := by
  refine Holds.read fun session hkept => Holds.ofExcept ?_ ?_
  · rintro _ - state rfl
    exact hkept
  · rintro _ state rfl
    exact hkept

theorem speak_keeps (node text : Text) : Keeps books (speak seams node text) :=
  (render_keeps node text).bind fun _ => (record_writes _ _ _).keeps

theorem finish_keeps (node : Text) : Keeps books (finish node : Action R J Unit) := by
  refine Holds.read fun session hkept => ?_
  cases houtcome : session.flow.effectiveTerminal node with
  | none =>
    dsimp only
    refine Holds.throw ?_
    rintro state rfl
    exact hkept
  | some outcome =>
    dsimp only
    exact Holds.set fun _ _ => { hkept with outcome := fun _ => rfl }

theorem Kept.move {session : Session R J} (h : Kept books session) (target : Text) :
    Kept books { session with current := some target } :=
  { h with outcome := by rintro ⟨⟩ }

theorem speakThenFollow_keeps (node text : Text) :
    Keeps books (speakThenFollow seams node text) := by
  refine (speak_keeps node text).bind fun _ => Holds.read fun session hkept => ?_
  cases htarget : (session.flow.edgeTargets node).head? with
  | none =>
    dsimp only
    refine Holds.throw ?_
    rintro state rfl
    exact hkept
  | some target =>
    dsimp only
    exact Holds.set fun _ _ => hkept.move target

theorem takeBranch_keeps (when : Predicate) (then_ otherwise : Text) :
    Keeps books (takeBranch when then_ otherwise : Action R J Unit) := by
  refine Holds.read fun session hkept => Holds.bind (Q := fun _ => (· = session))
    (Holds.ofExcept ?_ ?_) fun holds => Holds.set fun _ _ => hkept.move _
  · rintro _ - state rfl
    rfl
  · rintro _ state rfl
    exact hkept

theorem refer_keeps (node text : Text) : Keeps books (refer seams node text) :=
  (speak_keeps node text).bind fun _ => finish_keeps node

theorem takeRoute_keeps (dispatch fallback : Text) :
    Keeps books (takeRoute dispatch fallback : Action R J Unit) :=
  Holds.modify fun _ hkept => hkept.move _

theorem step_keeps {node : Text} {kind : NodeKind} {session : Session R J}
    (hkept : Kept { books with owed := 0 } session) (hcurrent : session.current = some node)
    (hkind : session.flow.node node = some kind) :
    Holds (· = session) (step seams node kind)
      (fun waits state => Kept { books with owed := 0 } state ∧ (waits = true → Rests state))
      (fun _ => Kept { books with owed := 0 }) := by
  have goes {act : Action R J Unit} (h : Keeps books act) :
      Holds (· = session) (act >>= fun _ => pure false)
        (fun waits state => Kept { books with owed := 0 } state ∧ (waits = true → Rests state))
        (fun _ => Kept { books with owed := 0 }) :=
    (h.at hkept).bind fun _ => Holds.pure fun _ hstate => ⟨hstate, by rintro ⟨⟩⟩
  cases kind with
  | say text => exact goes (speakThenFollow_keeps node text)
  | ask var options routes =>
    have hprompt := (@recordPrompt_writes R J seams books node options).run session hkept
    refine (hprompt.refuses fun _ _ hstate => hstate.1).bind fun _ => Holds.pure ?_
    rintro state ⟨hstate, hfixed⟩
    refine ⟨hstate, fun _ => .inr ⟨node, var, options, routes, ?_, ?_⟩⟩
    · rw [hfixed.current, hcurrent]
    · rw [hfixed.flow, hkind]
  | branch var when then_ otherwise => exact goes (takeBranch_keeps when then_ otherwise)
  | handoff target => exact goes (finish_keeps node)
  | refer target text => exact goes (refer_keeps node text)
  | route dispatch fallback => exact goes (takeRoute_keeps dispatch fallback)
  | end_ => exact goes (finish_keeps node)

def Balanced (resolver : R) (session : Session R J) : Prop :=
  Kept ⟨session.flow.bounds.budget, session.steps, 0, 0, resolver⟩ session

theorem Kept.balanced {session : Session R J} (h : Kept books session) (howed : books.owed = 0) :
    Balanced books.resolver session :=
  { h with
    budget := rfl
    steps := rfl
    retained := by rw [h.retained, howed]
    afford := by rw [h.steps, h.budget]; exact h.afford
    visits := by
      rw [h.steps]
      exact Nat.le_trans (Nat.le_add_right _ _) h.visits }

abbrev Solvent (session : Session R J) : Prop := Balanced session.resolver session

def Poised (resolver : R) (session : Session R J) : Prop := Balanced resolver session ∧ Rests session

theorem Kept.visit {session : Session R J} {budget steps : Nat} (node : Text)
    (h : Kept ⟨budget, steps, 1, bytes node, resolver⟩ session) :
    Kept ⟨budget, steps, 0, 0, resolver⟩ { session with visited := session.visited ++ [node] } :=
  { h with
    retained := by
      have hretained := h.retained
      simp only [held, List.map_append, List.sum_append, List.map_cons, List.map_nil,
        List.sum_cons, List.sum_nil] at hretained ⊢
      omega
    visits := by
      rw [List.length_append, List.length_singleton]
      exact h.visits }

theorem visit_keeps {budget steps : Nat} {node : Text} {session : Session R J}
    (hkept : Kept ⟨budget, steps, 0, 0, resolver⟩ session) (hcurrent : session.current = some node) :
    Holds (· = session) (visit seams node)
      (fun waits state => Kept ⟨budget, steps + 1, 0, 0, resolver⟩ state ∧ (waits = true → Rests state))
      (fun _ => Balanced resolver) := by
  have balances {steps unspent : Nat} : ∀ (_ : BotError) (state : Session R J),
      Kept ⟨budget, steps, unspent, 0, resolver⟩ state → Balanced resolver state :=
    fun _ _ hstate => hstate.balanced rfl
  refine ((chargeStep_keeps hkept).refuses balances).bind fun _ => Holds.of_each ?_
  rintro _ ⟨hcharged, rfl⟩
  have hspent : Kept ⟨budget, steps + 1, 1, 0, resolver⟩
      { session with steps := session.steps + 1 } := hcharged
  refine ((@chargeRetention_keeps R J ⟨budget, steps + 1, 1, 0, resolver⟩ _ _ hspent).refuses
    fun _ _ hstate => hstate.1.balanced rfl).bind fun _ => Holds.of_each ?_
  rintro _ ⟨howing, -, rfl⟩
  refine Holds.bind (Q := fun _ state => Kept ⟨budget, steps + 1, 0, 0, resolver⟩ state ∧
    state.current = some node) (Holds.modify ?_) fun _ => Holds.read fun state hstate => ?_
  · rintro _ rfl
    exact ⟨howing.visit node, hcurrent⟩
  · cases hkind : state.flow.node node with
    | none =>
      dsimp only
      refine Holds.throw ?_
      rintro _ rfl
      exact hstate.1.balanced rfl
    | some kind =>
      exact (@step_keeps R J seams ⟨budget, steps + 1, 0, 0, resolver⟩ _ _ _ hstate.1 hstate.2
        hkind).refuses balances

theorem driveFor_ends {budget : Nat} (rounds : Nat) :
    ∀ steps, budget < steps + rounds →
      Holds (Kept ⟨budget, steps, 0, 0, resolver⟩) (driveFor seams rounds)
        (fun ended state => ended = true ∧ Poised resolver state) (fun _ => Balanced resolver) := by
  induction rounds with
  | zero =>
    intro steps hrounds
    constructor
    intro session hkept
    have hafford : steps ≤ budget := hkept.afford
    omega
  | succ rounds ih =>
    intro steps hrounds
    refine Holds.read fun session hkept => ?_
    cases hcurrent : session.current with
    | none =>
      refine Holds.pure ?_
      rintro state rfl
      exact ⟨rfl, hkept.balanced rfl, .inl (hkept.outcome hcurrent)⟩
    | some node =>
      refine (visit_keeps hkept hcurrent).bind fun waits => ?_
      cases waits with
      | true => exact Holds.pure fun state hstate => ⟨rfl, hstate.1.balanced rfl, hstate.2 rfl⟩
      | false =>
        exact (ih (steps + 1) (by omega)).conseq (fun _ hstate => hstate.1)
          (fun _ _ => id) (fun _ _ => id)

theorem drive_ends :
    Holds (Balanced resolver) (drive seams) (fun _ => Poised resolver) (fun _ => Balanced resolver) := by
  refine Holds.read fun session hbalanced => ?_
  have hrounds : session.flow.bounds.budget <
      session.steps + (session.flow.bounds.budget + 1) := by omega
  refine Holds.bind (Q := fun _ => Poised resolver) ?_ fun _ => Holds.pure fun _ => id
  exact (driveFor_ends _ _ hrounds).conseq (fun _ hstate => hstate ▸ hbalanced)
    (fun _ _ hstate => hstate.2) (fun _ _ => id)

theorem Writes.bind {first second : Action R J Unit} (h : Writes books first)
    (h' : Writes books second) : Writes books (first >>= fun _ => second) := by
  constructor
  intro session hkept
  refine (h.run session hkept).bind fun _ => Holds.of_each fun middle hmiddle => ?_
  have hthen : ∀ state, Kept { books with owed := 0 } state ∧ Fixed middle state →
      Kept { books with owed := 0 } state ∧ Fixed session state :=
    fun _ hstate => ⟨hstate.1, hmiddle.2.trans hstate.2⟩
  exact (h'.run middle hmiddle.1).conseq (fun _ => id) (fun _ => hthen) (fun _ => hthen)

theorem writeReceipt_writes (turn : Turn) (selected route : Option Text) :
    Writes books (writeReceipt seams turn selected route) := by
  constructor
  intro session hkept
  refine Holds.read fun state hstate => ?_
  subst hstate
  dsimp only
  split
  · exact Holds.bind
      (Q := fun _ other => Kept { books with owed := 0 } other ∧ Fixed state other)
      (Holds.set fun _ _ => ⟨{ hkept with }, ⟨rfl, rfl, rfl, rfl, rfl, rfl, rfl⟩⟩)
      fun _ => Holds.throw fun _ => id
  · exact Holds.set fun _ _ => ⟨{ hkept with }, ⟨rfl, rfl, rfl, rfl, rfl, rfl, rfl⟩⟩

theorem bindAnswer_keeps (turn : Turn) (option : Text) :
    Keeps books (bindAnswer turn option : Action R J Unit) := by
  refine Holds.read fun session hkept => Holds.bind (Q := fun _ => (· = session))
    (Holds.ofExcept ?_ ?_) fun scope => Holds.set fun _ _ => { hkept with }
  · rintro _ - state rfl
    rfl
  · rintro _ state rfl
    exact hkept

theorem acceptResolved_rests (turn : Turn) (index : Nat) :
    Holds (Kept { books with owed := 0 }) (acceptResolved seams turn index)
      (fun _ => Poised books.resolver) (fun _ => Balanced books.resolver) := by
  have balances : ∀ (_ : BotError) (state : Session R J), Kept { books with owed := 0 } state →
      Balanced books.resolver state := fun _ _ hstate => hstate.balanced rfl
  have throws (failure : BotError) : Holds (Kept { books with owed := 0 })
      (throw failure : Action R J Unit) (fun _ => Poised books.resolver)
      (fun _ => Balanced books.resolver) := Holds.throw (balances failure)
  unfold acceptResolved
  cases turn.options[index]? with
  | none => exact throws _
  | some option =>
    cases hroute : turn.routes.get option with
    | none =>
      dsimp only
      rw [hroute]
      exact throws _
    | some target =>
      dsimp only
      rw [hroute]
      refine ((writeReceipt_writes turn _ _).keeps.refuses balances).bind fun _ => ?_
      refine ((bindAnswer_keeps turn option).refuses balances).bind fun _ => ?_
      refine ((record_writes _ _ _).keeps.refuses balances).bind fun _ => ?_
      refine Holds.bind (Q := fun _ => Balanced books.resolver) (Holds.modify ?_) fun _ => drive_ends
      exact fun state hstate => (hstate.move target).balanced rfl

theorem recordStaleAlias_writes (node question option : Text) :
    Writes books (recordStaleAlias seams node question option) := by
  unfold recordStaleAlias
  exact record_writes _ _ _

theorem recordDegraded_writes (node : Text) (reason : DegradedReason) :
    Writes books (recordDegraded seams node reason) := by
  unfold recordDegraded
  exact record_writes _ _ _

theorem reask_writes (turn : Turn) (ask : List Text) : Writes books (reask seams turn ask) :=
  ((writeReceipt_writes turn none none).bind (record_writes _ _ _)).bind (recordPrompt_writes _ _)

theorem applyResolution_rests {turn : Turn} {session : Session R J}
    (hkept : Kept { books with owed := 0 } session) (hrests : Rests session)
    (hopen : session.terminal = none) (resolution : Resolution) :
    Holds (· = session) (applyResolution seams turn resolution)
      (fun _ => Poised books.resolver) (fun _ => Balanced books.resolver) := by
  have stays {act : Action R J Unit} (h : Writes books act) :
      Holds (· = session) act (fun _ => Poised books.resolver)
        (fun _ => Balanced books.resolver) := by
    refine (h.run session hkept).conseq (fun _ => id) (fun _ state hstate => ?_)
      (fun _ _ hstate => hstate.1.balanced rfl)
    refine ⟨hstate.1.balanced rfl, .inr ?_⟩
    rw [hstate.2.current, hstate.2.flow]
    exact hrests.resolve_left (by rw [hopen]; rintro ⟨⟩)
  cases resolution with
  | resolved index tier score lead =>
    exact (acceptResolved_rests turn index).conseq (fun _ hstate => hstate ▸ hkept)
      (fun _ _ => id) (fun _ _ => id)
  | ambiguous tied tier score => exact stays (reask_writes turn _)
  | absent bestScore => exact stays (reask_writes turn _)
  | staleAlias question option =>
    exact stays ((recordStaleAlias_writes _ _ _).bind (reask_writes turn _))
  | degraded reason => exact stays ((recordDegraded_writes _ _).bind (reask_writes turn _))

theorem Kept.judged {session : Session R J} (h : Kept books session) (resolver : R) :
    Kept { books with resolver := resolver } { session with resolver := resolver } :=
  { h with resolver := rfl }

theorem judged_changes {session : Session R J} {E : BotError → Session R J → Prop}
    (utterance : Text) (question : Question) :
    Holds (· = session) (judged seams utterance question)
      (fun verdict state => verdict = (seams.resolve session.resolver utterance question).1 ∧ state =
        { session with resolver := (seams.resolve session.resolver utterance question).2 }) E := by
  refine Holds.read fun state hstate => ?_
  subst hstate
  exact Holds.bind (Q := fun _ other => other =
      { state with resolver := (seams.resolve state.resolver utterance question).2 })
    (Holds.set fun _ _ => rfl) fun _ => Holds.pure fun _ hother => ⟨rfl, hother⟩

theorem asked_rests {session : Session R J} {node var : Text} {options : List Text}
    {routes : Table Text Text} {utterance : Text} {question : Question}
    (hkept : Kept { books with owed := 0 } session) (hopen : session.terminal = none)
    (hcurrent : session.current = some node)
    (hask : session.flow.node node = some (.ask var options routes)) :
    Holds (· = session)
      (do
        let verdict ← judged seams utterance question
        applyResolution seams ⟨node, var, options, routes, verdict, utterance⟩ verdict.resolution)
      (fun _ => Poised (seams.resolve session.resolver utterance question).2)
      (fun _ => Balanced (seams.resolve session.resolver utterance question).2) := by
  refine (judged_changes utterance question).bind fun verdict => Holds.of_each ?_
  rintro state ⟨-, hstate⟩
  have hjudged := hkept.judged (seams.resolve session.resolver utterance question).2
  rw [← hstate] at hjudged
  have hrests : Rests state := by
    rw [hstate]
    exact .inr ⟨node, var, options, routes, hcurrent, hask⟩
  have hstill : state.terminal = none := by
    rw [hstate]
    exact hopen
  exact @applyResolution_rests R J seams ⟨_, _, _, 0, _⟩ _ _ hjudged hrests hstill _

def Heard (seams : Seams R J) (utterance : Text) (session state : Session R J) : Prop :=
  state.resolver = session.resolver ∨
    ∃ question, state.resolver = (seams.resolve session.resolver utterance question).2

theorem answer_rests (utterance : Text) {session : Session R J} (hsolvent : Solvent session) :
    Holds (· = session) (answer seams utterance)
      (fun _ state => Poised state.resolver state ∧ Heard seams utterance session state)
      (fun _ state => Solvent state ∧ Heard seams utterance session state) := by
  refine Holds.read fun state hstate => ?_
  subst hstate
  have throws (failure : BotError) : Holds (· = state) (throw failure : Action R J Unit)
      (fun _ other => Poised other.resolver other ∧ Heard seams utterance state other)
      (fun _ other => Solvent other ∧ Heard seams utterance state other) := by
    refine Holds.throw ?_
    rintro _ rfl
    exact ⟨hsolvent, .inl rfl⟩
  change Holds _ (if _ then _ else _) _ _
  split
  · exact throws _
  · rename_i hopen
    dsimp only
    split
    · exact throws _
    · rename_i node hcurrent
      split
      · rename_i var options routes hask
        split
        · exact throws _
        · refine ((chargeStep_keeps hsolvent).refuses fun _ other hother => ?_).bind
            fun _ => Holds.of_each ?_
          · rw [Solvent, hother.resolver]
            exact ⟨hother.balanced rfl, .inl hother.resolver⟩
          rintro _ ⟨hcharged, rfl⟩
          have hopen : state.terminal = none := by simpa using hopen
          refine (@asked_rests R J seams ⟨_, _, 1, 0, _⟩ _ _ _ _ _ _ _ hcharged hopen hcurrent
            hask).conseq (fun _ => id) (fun _ other hother => ?_) (fun _ other hother => ?_)
          · rw [hother.1.resolver]
            exact ⟨hother, .inr ⟨_, hother.1.resolver⟩⟩
          · rw [Solvent, hother.resolver]
            exact ⟨hother, .inr ⟨_, hother.resolver⟩⟩
      · exact throws _

theorem fresh_balanced {id revision : Text} {flow : FlowSpec} {scope : VarScope} {resolver : R}
    {journal : J} {limits : ResourceLimits}
    (hceiling : limits.get .session ≤ ResourceLimits.shipped.get .session) :
    Balanced resolver (fresh id flow revision scope resolver journal limits) where
  budget := rfl
  steps := rfl
  afford := Nat.zero_le _
  retained := rfl
  within := Nat.zero_le _
  ceiling := hceiling
  records := by rintro entry ⟨⟩
  visits := Nat.le_refl 0
  outcome := by rintro ⟨⟩
  resolver := rfl

theorem withinCeiling_session {limits accepted : ResourceLimits}
    (h : limits.withinCeiling = .ok accepted) :
    accepted.get .session ≤ ResourceLimits.shipped.get .session := by
  simp only [ResourceLimits.withinCeiling, bind_eq_ok, List.forM_eq_forM, List.forM_cons,
    List.forM_nil, require_eq_ok] at h
  obtain ⟨-, ⟨-, -, -, -, -, -, -, hsession, -⟩, haccepted⟩ := h
  cases haccepted
  exact hsession

theorem withComponentsAndLimits_rests {unicode : Unicode} {id : Text} {flow : FlowSpec}
    {resolver : R} {journal : J} {limits : ResourceLimits} {session : Session R J}
    (h : withComponentsAndLimits seams unicode id flow resolver journal limits = .ok session) :
    Poised resolver session := by
  simp only [withComponentsAndLimits, bind_eq_ok] at h
  obtain ⟨operator, hoperator, requested, -, -, -, scope, -, revision, -, hdrive⟩ := h
  have hceiling : (operator.narrowed requested).get .session ≤
      ResourceLimits.shipped.get .session :=
    Nat.le_trans (Nat.min_le_left _ _) (withinCeiling_session hoperator)
  have hfresh : Balanced resolver (fresh id flow revision scope resolver journal
      (operator.narrowed requested)) := fresh_balanced hceiling
  have hends := (@drive_ends R J seams).run _ hfresh
  split at hdrive
  · rename_i state hrun
    cases hdrive
    rw [hrun] at hends
    exact hends
  · cases hdrive

inductive Reached (seams : Seams R J) (unicode : Unicode) : Session R J → Prop where
  | started {id : Text} {flow : FlowSpec} {resolver : R} {journal : J} {limits : ResourceLimits}
      {session : Session R J}
      (hstart : withComponentsAndLimits seams unicode id flow resolver journal limits = .ok session) :
      Reached seams unicode session
  | answered {session : Session R J} (utterance : Text) (h : Reached seams unicode session) :
      Reached seams unicode (after (answer seams utterance session))

theorem after_of_holds {α : Type} {act : Action R J α} {session : Session R J}
    {Q : Session R J → Prop} (h : Holds (· = session) act (fun _ => Q) (fun _ => Q)) :
    Q (after (act session)) := by
  have hends := h.run session rfl
  cases hrun : act session with
  | ok value state =>
    rw [hrun] at hends
    exact hends
  | error failure state =>
    rw [hrun] at hends
    exact hends

theorem answer_solvent (utterance : Text) {session : Session R J} (hsolvent : Solvent session) :
    Solvent (after (answer seams utterance session)) ∧
      Heard seams utterance session (after (answer seams utterance session)) :=
  after_of_holds ((answer_rests utterance hsolvent).conseq (fun _ => id)
    (fun _ _ hstate => ⟨hstate.1.1, hstate.2⟩) (fun _ _ => id))

theorem Reached.balanced {unicode : Unicode} {session : Session R J}
    (h : Reached seams unicode session) : Solvent session := by
  induction h with
  | started hstart =>
    have hpoised := withComponentsAndLimits_rests hstart
    rw [Solvent, hpoised.1.resolver]
    exact hpoised.1
  | answered utterance _ ih => exact (answer_solvent utterance ih).1

def Settled : EStateM.Result BotError (Session R J) Bool → Prop
  | .ok ended state => ended = true ∧ Rests state
  | .error _ _ => True

theorem driveFor_none {session : Session R J} (rounds : Nat) (hcurrent : session.current = none) :
    driveFor seams (rounds + 1) session = .ok true session := by
  rw [driveFor]
  rw [get_bind, hcurrent]
  rfl

theorem driveFor_some {session : Session R J} {node : Text} (rounds : Nat)
    (hcurrent : session.current = some node) :
    driveFor seams (rounds + 1) session =
      EStateM.bind (visit seams node)
        (fun waits => if waits then pure true else driveFor seams rounds) session := by
  rw [driveFor]
  rw [get_bind, hcurrent]
  rfl

theorem driveFor_succ (rounds : Nat) : ∀ session : Session R J,
    (∀ state, driveFor seams rounds session ≠ .ok false state) →
      driveFor seams (rounds + 1) session = driveFor seams rounds session := by
  induction rounds with
  | zero =>
    intro session hended
    exact absurd rfl (hended session)
  | succ rounds ih =>
    intro session hended
    cases hcurrent : session.current with
    | none => rw [driveFor_none _ hcurrent, driveFor_none _ hcurrent]
    | some node =>
      rw [driveFor_some _ hcurrent] at hended
      rw [driveFor_some _ hcurrent, driveFor_some _ hcurrent]
      unfold EStateM.bind at hended ⊢
      cases hvisit : visit seams node session with
      | error failure state => rfl
      | ok waits state =>
        cases waits with
        | true => rfl
        | false =>
          rw [hvisit] at hended
          exact ih state hended

/-- The loop comes to one end in every number of rounds the budget does not reach. -/
theorem driveFor_settles {session : Session R J} (hbalanced : Balanced resolver session) :
    ∃ result, Settled result ∧ ∀ rounds,
      session.flow.bounds.budget < session.steps + rounds → driveFor seams rounds session = result := by
  have hends (rounds : Nat) (hrounds : session.flow.bounds.budget < session.steps + rounds) :
      Settled (driveFor seams rounds session) := by
    have hrun := (@driveFor_ends R J seams resolver _ rounds _ hrounds).run session hbalanced
    cases hresult : driveFor seams rounds session with
    | ok ended state =>
      rw [hresult] at hrun
      exact ⟨hrun.1, hrun.2.2⟩
    | error failure state => trivial
  have hended (rounds : Nat) (hrounds : session.flow.bounds.budget < session.steps + rounds)
      (state : Session R J) : driveFor seams rounds session ≠ .ok false state := by
    intro hresult
    have hsettled := hends rounds hrounds
    rw [hresult] at hsettled
    cases hsettled.1
  let least := session.flow.bounds.budget + 1 - session.steps
  have hleast {rounds : Nat} (hrounds : least ≤ rounds) :
      session.flow.bounds.budget < session.steps + rounds := by omega
  refine ⟨driveFor seams least session, hends _ (hleast (Nat.le_refl _)), fun rounds hrounds => ?_⟩
  have hle : least ≤ rounds := by omega
  induction rounds, hle using Nat.le_induction with
  | base => rfl
  | succ rounds hle ih =>
    rw [driveFor_succ rounds session (hended rounds (hleast hle))]
    exact ih (hleast hle)

/-- In every state of a session its accounts are exact and within its bounds; a session starts at
rest and every answer taken leaves it so; and the loop that leads there ends. -/
theorem accounts_exact (seams : Seams R J) (unicode : Unicode) :
    (∀ session, Reached seams unicode session → Accounted session) ∧
      (∀ id flow resolver journal limits session,
        withComponentsAndLimits seams unicode id flow resolver journal limits = .ok session →
          Rests session) ∧
      (∀ session utterance state, Reached seams unicode session →
        answer seams utterance session = .ok () state → Rests state) ∧
      ∀ session : Session R J, Solvent session → ∃ result, Settled result ∧ ∀ rounds,
        session.flow.bounds.budget < session.steps + rounds →
          driveFor seams rounds session = result := by
  refine ⟨fun session h => h.balanced.accounted rfl, ?_, ?_, fun _ => driveFor_settles⟩
  · intro id flow resolver journal limits session hstart
    exact (withComponentsAndLimits_rests hstart).2
  · intro session utterance state h hanswer
    have hends := (@answer_rests R J seams utterance session h.balanced).run session rfl
    rw [hanswer] at hends
    exact hends.1.2

def oneQuestion (options : List Text) : FlowSpec where
  vars := Table.empty.insert "x".toList .string
  entry := "ask".toList
  nodes := (Table.empty.insert "end".toList .end_).insert "ask".toList
    (.ask "x".toList options
      (options.foldl (fun routes option => routes.insert option "end".toList) .empty))
  edges := []
  terminals := .empty
  bounds := ⟨8, none⟩

def always (resolution : Resolution) : Seams Unit Unit where
  resolve _ _ _ := (⟨resolution, ⟨[], [], none⟩⟩, ())
  record _ _ _ _ := ()
  recordDecision _ _ := (.ok .inMemory, ())
  optionsRevision _ := []
  revisionOf _ := .ok []

def latin : Unicode where
  isAlphanumeric character := character.isAlphanum
  lowercase character := [character.toLower]

def opened (flow : FlowSpec) (resolution : Resolution) : Except BotError (Session Unit Unit) :=
  withComponentsAndLimits (always resolution) latin [] flow () () .shipped

/-- The accounts after one question was asked and answered. -/
theorem accounts_exact_answered : ∃ session,
    opened (oneQuestion ["yes".toList]) (.resolved 0 .exact 1 1) = .ok session ∧
      Accounted (after (answer (always (.resolved 0 .exact 1 1)) "yes".toList session)) := by
  have hstarts :
      (opened (oneQuestion ["yes".toList]) (.resolved 0 .exact 1 1)).toOption.isSome = true := by
    decide +kernel
  cases hopened : opened (oneQuestion ["yes".toList]) (.resolved 0 .exact 1 1) with
  | error failure =>
    rw [hopened] at hstarts
    cases hstarts
  | ok session =>
    have hreached := Reached.answered "yes".toList (.started hopened)
    exact ⟨session, rfl, (accounts_exact _ latin).1 _ hreached⟩

end LogicalWorks.Session.Runner
