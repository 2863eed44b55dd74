import LogicalWorks.Session.Account

/-! The receipt of an answer: what the session did before it, and what a refused one leaves. -/
namespace LogicalWorks.Session.Runner

open Fallible

variable {R J : Type} {seams : Seams R J}

def announced : Resolution → Bool
  | .staleAlias _ _ | .degraded _ => true
  | .resolved _ _ _ _ | .ambiguous _ _ _ | .absent _ => false

def announce (seams : Seams R J) (turn : Turn) : Resolution → Action R J Unit
  | .staleAlias question option => recordStaleAlias seams turn.node question option
  | .degraded reason => recordDegraded seams turn.node reason
  | .resolved _ _ _ _ | .ambiguous _ _ _ | .absent _ => return ()

def select (turn : Turn) : Resolution → Action R J (Option (Text × Text))
  | .resolved index _ _ _ =>
    match turn.options[index]? with
    | none => throw (.resolverReturnedInvalidOption turn.node)
    | some option =>
      match turn.routes.get option with
      | none => throw (.missingAskRoute turn.node option)
      | some target => return some (option, target)
  | .ambiguous _ _ _ | .absent _ | .staleAlias _ _ | .degraded _ => return none

structure Offer where
  turn : Turn
  chosen : Option (Text × Text)

def Offer.receipt (seams : Seams R J) (offer : Offer) (session : Session R J) : DecisionReceipt :=
  receiptOf seams session offer.turn (offer.chosen.map Prod.fst) (offer.chosen.map Prod.snd)

def offered (seams : Seams R J) (utterance : Text) : Action R J Offer := do
  let session ← get
  if session.terminal.isSome then throw .sessionTerminated
  else
    match session.current with
    | none => throw .sessionNotAwaitingAnswer
    | some node =>
      match session.flow.node node with
      | some (.ask var options routes) =>
        let limit := session.limits.get .utterance
        if limit < bytes utterance then throw (.utteranceTooLarge (bytes utterance) limit)
        else do
          chargeStep
          let verdict ← judged seams utterance ⟨node, options, session.scope.answerDomain var⟩
          let turn : Turn := ⟨node, var, options, routes, verdict, utterance⟩
          announce seams turn verdict.resolution
          let chosen ← select turn verdict.resolution
          return ⟨turn, chosen⟩
      | _ => throw .sessionNotAwaitingAnswer

def askAgain (turn : Turn) : List Text :=
  match turn.verdict.resolution with
  | .ambiguous tied _ _ => narrowedAsk turn.options tied
  | _ => turn.options

def receipted (seams : Seams R J) (offer : Offer) : Action R J Unit := do
  writeReceipt seams offer.turn (offer.chosen.map Prod.fst) (offer.chosen.map Prod.snd)
  match offer.chosen with
  | none => do
    record seams offer.turn.node "user".toList offer.turn.utterance
    recordPrompt seams offer.turn.node (askAgain offer.turn)
  | some (option, target) => do
    bindAnswer offer.turn option
    record seams offer.turn.node "user".toList offer.turn.utterance
    modify fun session => { session with current := some target }
    drive seams

theorem applyResolution_eq (turn : Turn) :
    applyResolution seams turn turn.verdict.resolution = (do
      announce seams turn turn.verdict.resolution
      let chosen ← select turn turn.verdict.resolution
      receipted seams ⟨turn, chosen⟩) := by
  have again : ∀ ask, ask = askAgain turn →
      reask seams turn ask = receipted seams ⟨turn, none⟩ := by
    rintro ask rfl
    simp only [reask, receiptAndRecord, receipted, bind_assoc, Option.map_none]
  cases hverdict : turn.verdict.resolution with
  | resolved index tier score lead =>
    simp only [applyResolution, announce, select, acceptResolved, pure_bind]
    cases turn.options[index]? with
    | none => rfl
    | some option =>
      dsimp only
      cases turn.routes.get option with
      | none => rfl
      | some target => rfl
  | ambiguous tied tier score =>
    have hask : narrowedAsk turn.options tied = askAgain turn := by simp [askAgain, hverdict]
    simpa only [applyResolution, announce, select, pure_bind] using again _ hask
  | absent bestScore =>
    have hask : turn.options = askAgain turn := by simp [askAgain, hverdict]
    simpa only [applyResolution, announce, select, pure_bind] using again _ hask
  | staleAlias question option =>
    have hask : turn.options = askAgain turn := by simp [askAgain, hverdict]
    simp only [applyResolution, announce, select, pure_bind, again _ hask]
  | degraded reason =>
    have hask : turn.options = askAgain turn := by simp [askAgain, hverdict]
    simp only [applyResolution, announce, select, pure_bind, again _ hask]

theorem answer_offered (utterance : Text) :
    answer seams utterance = offered seams utterance >>= receipted seams := by
  unfold answer offered
  rw [bind_assoc]
  refine bind_congr fun session => ?_
  split
  · rfl
  · cases session.current with
    | none => rfl
    | some node =>
      dsimp only
      cases session.flow.node node with
      | none => rfl
      | some kind =>
        cases kind with
        | ask var options routes =>
          dsimp only
          split
          · rfl
          · simp only [bind_assoc, pure_bind]
            exact bind_congr fun _ => bind_congr fun _ => applyResolution_eq _
        | _ => rfl

def Noticed (noticed : Bool) (session state : Session R J) : Prop :=
  ∃ retained journal said,
    state = { session with
      retained := retained
      journal := journal
      transcript := session.transcript ++ said } ∧
    if noticed then said ≠ [] else retained = session.retained ∧ journal = session.journal ∧ said = []

theorem record_noticed {session : Session R J} (hsolvent : Solvent session) (node role text : Text) :
    Holds (· = session) (record seams node role text) (fun _ => Noticed true session)
      (fun _ _ => True) := by
  refine Holds.read fun state hstate => ?_
  subst hstate
  change Holds _ (if _ then _ else _) _ _
  split
  · exact Holds.throw fun _ _ => trivial
  · refine ((@chargeRetention_keeps R J ⟨_, _, 0, 0, _⟩ _ _ hsolvent).refuses fun _ _ _ => trivial).bind
      fun _ => Holds.modify ?_
    rintro _ ⟨-, -, rfl⟩
    exact ⟨_, _, [⟨node, role, text⟩], rfl, List.cons_ne_nil _ _⟩

theorem announce_noticed {session : Session R J} (hsolvent : Solvent session) (turn : Turn)
    (resolution : Resolution) :
    Holds (· = session) (announce seams turn resolution)
      (fun _ => Noticed (announced resolution) session) (fun _ _ => True) := by
  have still : Holds (· = session) (pure () : Action R J Unit)
      (fun _ => Noticed false session) (fun _ _ => True) := by
    refine Holds.pure ?_
    rintro _ rfl
    exact ⟨_, _, [], by rw [List.append_nil], rfl, rfl, rfl⟩
  cases resolution with
  | staleAlias question option => exact record_noticed hsolvent _ _ _
  | degraded reason => exact record_noticed hsolvent _ _ _
  | _ => exact still

theorem select_same {session : Session R J} (turn : Turn) (resolution : Resolution) :
    Holds (· = session) (select turn resolution) (fun _ => (· = session)) (fun _ _ => True) := by
  unfold select
  split
  · split
    · exact Holds.throw fun _ _ => trivial
    · split
      · exact Holds.throw fun _ _ => trivial
      · exact Holds.pure fun _ => id
  all_goals exact Holds.pure fun _ => id

theorem offered_noticed {session : Session R J} (hsolvent : Solvent session) (utterance : Text) :
    Holds (· = session) (offered seams utterance)
      (fun offer state => ∃ resolver, Noticed (announced offer.turn.verdict.resolution)
        { session with steps := session.steps + 1, resolver := resolver } state)
      (fun _ _ => True) := by
  refine Holds.read fun state hstate => ?_
  subst hstate
  have throws (failure : BotError) : Holds (· = state) (throw failure : Action R J Offer)
      (fun offer other => ∃ resolver, Noticed (announced offer.turn.verdict.resolution)
        { state with steps := state.steps + 1, resolver := resolver } other)
      (fun _ _ => True) := Holds.throw fun _ _ => trivial
  change Holds _ (if _ then _ else _) _ _
  split
  · exact throws _
  · dsimp only
    split
    · exact throws _
    · split
      · split
        · exact throws _
        · refine ((chargeStep_keeps hsolvent).refuses fun _ _ _ => trivial).bind
            fun _ => Holds.of_each ?_
          rintro _ ⟨hcharged, rfl⟩
          refine (judged_changes _ _).bind fun verdict => Holds.of_each ?_
          rintro _ ⟨-, rfl⟩
          refine (announce_noticed ((hcharged.judged _).balanced rfl) _ _).bind
            fun _ => Holds.of_each fun told htold => ?_
          refine (select_same _ _).bind fun chosen => Holds.pure ?_
          rintro _ rfl
          exact ⟨_, htold⟩
      · exact throws _

theorem answer_refused {session state : Session R J} {utterance : Text} {offer : Offer}
    {cause : JournalError} {journal : J} (hoffered : offered seams utterance session = .ok offer state)
    (hrefused : seams.recordDecision state.journal (offer.receipt seams state) =
      (.error cause, journal)) :
    answer seams utterance session =
      .error (.receiptNotRecorded offer.turn.node cause) { state with journal := journal } := by
  have hreceipt : receipted seams offer state =
      .error (.receiptNotRecorded offer.turn.node cause) { state with journal := journal } := by
    unfold receipted writeReceipt
    rw [bind_assoc, get_bind]
    change (EStateM.bind _ _) state = _
    unfold Offer.receipt at hrefused
    simp only [hrefused]
    rfl
  rw [answer_offered]
  change EStateM.bind _ _ session = _
  simp only [EStateM.bind, hoffered, hreceipt]

def Unmoved (session state : Session R J) : Prop :=
  state.current = session.current ∧ state.terminal = session.terminal ∧
    state.scope = session.scope ∧ state.transcript = session.transcript ∧
    state.visited = session.visited ∧ state.retained = session.retained ∧
    state.decisions = session.decisions

theorem Noticed.silent_iff {noticed : Bool} {session state : Session R J}
    (h : Noticed noticed session state) : state.transcript = session.transcript ↔ noticed = false := by
  obtain ⟨retained, journal, said, rfl, hsaid⟩ := h
  cases noticed with
  | false =>
    obtain ⟨-, -, rfl⟩ := hsaid
    simp
  | true => simpa using hsaid

theorem Noticed.unmoved {session state : Session R J} (h : Noticed false session state) :
    Unmoved session state ∧ state.journal = session.journal := by
  obtain ⟨retained, journal, said, rfl, rfl, rfl, rfl⟩ := h
  exact ⟨⟨rfl, rfl, rfl, List.append_nil _, rfl, rfl, rfl⟩, rfl⟩

/-- A refused receipt keeps the step charged for it; all else is as it was, and every receipt is
written before a line or a value is, just when the verdict comes without a notice of its own. -/
theorem refusal_unmoved_iff {unicode : Unicode} {session state : Session R J} {utterance : Text}
    {offer : Offer} (hreached : Reached seams unicode session)
    (hoffered : offered seams utterance session = .ok offer state) :
    (∀ cause journal,
      seams.recordDecision state.journal (offer.receipt seams state) = (.error cause, journal) →
        ∃ left, answer seams utterance session =
            .error (.receiptNotRecorded offer.turn.node cause) left ∧
          left.steps = session.steps + 1 ∧
          (Unmoved session left ∧ state.journal = session.journal ↔
            announced offer.turn.verdict.resolution = false)) ∧
      (state.transcript = session.transcript ∧ state.scope = session.scope ↔
        announced offer.turn.verdict.resolution = false) := by
  have hends := (@offered_noticed R J seams session hreached.balanced utterance).run session rfl
  rw [hoffered] at hends
  obtain ⟨resolver, hnoticed⟩ := hends
  have hsilent := hnoticed.silent_iff
  have hunmoved : announced offer.turn.verdict.resolution = false →
      Unmoved session state ∧ state.journal = session.journal := by
    intro hquiet
    rw [hquiet] at hnoticed
    exact hnoticed.unmoved
  refine ⟨fun cause journal hrefused => ⟨_, answer_refused hoffered hrefused, ?_, ?_⟩, ?_⟩
  · obtain ⟨_, _, _, rfl, -⟩ := hnoticed
    rfl
  · exact ⟨fun h => hsilent.mp h.1.2.2.2.1, hunmoved⟩
  · exact ⟨fun h => hsilent.mp h.1, fun h => ⟨hsilent.mpr h, (hunmoved h).1.2.2.1⟩⟩

def refusing : Seams Unit Unit :=
  { always (.degraded .embedderUnavailable) with recordDecision := fun _ _ => (.error ⟨[], []⟩, ()) }

def announces : EStateM.Result BotError (Session R J) Offer → Bool
  | .ok offer _ => announced offer.turn.verdict.resolution
  | .error _ _ => false

theorem refusing_announces : ∃ session offer state, Reached refusing latin session ∧
    offered refusing "yes".toList session = .ok offer state ∧
      announced offer.turn.verdict.resolution = true := by
  have hruns : ((withComponentsAndLimits refusing latin [] (oneQuestion ["yes".toList]) () ()
      .shipped).toOption.map fun session => announces (offered refusing "yes".toList session)) =
        some true := by decide +kernel
  cases hstart : withComponentsAndLimits refusing latin [] (oneQuestion ["yes".toList]) () ()
      .shipped with
  | error failure =>
    rw [hstart] at hruns
    cases hruns
  | ok session =>
    rw [hstart] at hruns
    have hannounces : announces (offered refusing "yes".toList session) = true :=
      Option.some.inj hruns
    cases hoffered : offered refusing "yes".toList session with
    | error failure state =>
      rw [hoffered] at hannounces
      cases hannounces
    | ok offer state =>
      rw [hoffered] at hannounces
      exact ⟨session, offer, state, .started hstart, hoffered, hannounces⟩

/-- The resolver is down and the journal full: the notice stays in the transcript. -/
theorem degraded_notice_stays : ∃ session node left, Reached refusing latin session ∧
    answer refusing "yes".toList session = .error (.receiptNotRecorded node ⟨[], []⟩) left ∧
      left.transcript ≠ session.transcript ∧ left.steps ≠ session.steps := by
  obtain ⟨session, offer, state, hreached, hoffered, hannounced⟩ := refusing_announces
  have hends := (@offered_noticed _ _ refusing session hreached.balanced "yes".toList).run _ rfl
  rw [hoffered] at hends
  obtain ⟨_, hnoticed⟩ := hends
  refine ⟨session, _, _, hreached, answer_refused hoffered rfl, fun hsame => ?_, ?_⟩
  · rw [hnoticed.silent_iff.mp hsame] at hannounced
    cases hannounced
  · obtain ⟨_, _, _, rfl, -⟩ := hnoticed
    exact Nat.succ_ne_self _

theorem refusal_unmoved_announced : ∃ session offer state, Reached refusing latin session ∧
    offered refusing "yes".toList session = .ok offer state ∧
      (∃ left, answer refusing "yes".toList session =
          .error (.receiptNotRecorded offer.turn.node ⟨[], []⟩) left ∧
        left.steps = session.steps + 1 ∧
        (Unmoved session left ∧ state.journal = session.journal ↔
          announced offer.turn.verdict.resolution = false)) ∧
      (state.transcript = session.transcript ∧ state.scope = session.scope ↔
        announced offer.turn.verdict.resolution = false) := by
  obtain ⟨session, offer, state, hreached, hoffered, -⟩ := refusing_announces
  have hrefusal := refusal_unmoved_iff hreached hoffered
  exact ⟨session, offer, state, hreached, hoffered, hrefusal.1 _ () rfl, hrefusal.2⟩

end LogicalWorks.Session.Runner
