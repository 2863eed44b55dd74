import LogicalWorks.Session.Receipts
import LogicalWorks.Session.Soundness
import Mathlib.Logic.Relation

/-! The history of a session: all it ever writes, and from it that its journal mirrors it and that
its receipts account for what it heard and what it stored. -/
namespace LogicalWorks.Session.Runner

open Fallible Relation

variable {R J : Type} {seams : Seams R J} {base session state : Session R J}

def elect (options : List Text) (routes : Table Text Text) : Resolution → Option (Text × Text)
  | .resolved index _ _ _ =>
    (options[index]?).bind fun option => (routes.get option).map fun target => (option, target)
  | _ => none

/-- A receipt of a verdict on an ask of the document, which selects as the verdict does. -/
structure Attests (seams : Seams R J) (session : Session R J) (receipt : DecisionReceipt) : Prop where
  version : receipt.version = receiptVersion
  issuer : receipt.session = session.id
  document : receipt.flow = session.flowRevision
  asked : ∃ var options routes,
    session.flow.node receipt.node = some (.ask var options routes) ∧
    receipt.options = seams.optionsRevision options ∧
    receipt.selected = (elect options routes receipt.resolution).map Prod.fst ∧
    receipt.route = (elect options routes receipt.resolution).map Prod.snd
  resolved : ∀ index tier score lead, receipt.resolution = .resolved index tier score lead →
    receipt.selected.isSome

def Stores (session : Session R J) (receipt : DecisionReceipt) (before after : VarScope) : Prop :=
  ∃ var options routes option, session.flow.node receipt.node = some (.ask var options routes) ∧
    receipt.selected = some option ∧
    before.setFromAnswerWithin var option (session.limits.get .value) = .ok after

def settled (session : Session R J) (receipt : DecisionReceipt) (acceptance : ReceiptAcceptance)
    (journal : J) (scope : VarScope) (utterance : Option Text) : Session R J :=
  { session with
    journal := journal
    decisions := session.decisions ++ [⟨receipt, acceptance⟩]
    scope := scope
    lastUtterance := utterance }

/-- All that a session writes that was opened as `base`. A receipt may be all that is kept of an
answer, and no value is without one. -/
inductive Write (seams : Seams R J) (base : Session R J) : Session R J → Session R J → Prop where
  | moved {session : Session R J} (current : Option Text) (visited : List Text)
      (terminal : Option Terminal) (steps retained : Nat) (resolver : R) :
      Write seams base session { session with
        current := current
        visited := visited
        terminal := terminal
        steps := steps
        retained := retained
        resolver := resolver }
  | told {session : Session R J} (node role text : Text) :
      Write seams base session { session with
        journal := seams.record session.journal node role text
        transcript := session.transcript ++ [⟨node, role, text⟩] }
  | refused {session : Session R J} {receipt : DecisionReceipt} {cause : JournalError} {journal : J}
      (hjournal : seams.recordDecision session.journal receipt = (.error cause, journal)) :
      Write seams base session { session with journal := journal }
  | answered {session : Session R J} {receipt : DecisionReceipt} {acceptance : ReceiptAcceptance}
      {journal : J} {scope : VarScope} {utterance : Option Text}
      (hattests : Attests seams base receipt)
      (hjournal : seams.recordDecision session.journal receipt = (.ok acceptance, journal))
      (hscope : scope = session.scope ∨ Stores base receipt session.scope scope) :
      Write seams base session (settled session receipt acceptance journal scope utterance)

abbrev Wrote (seams : Seams R J) (base : Session R J) := ReflTransGen (Write seams base) base

theorem setFromAnswerWithin_ok {before after : VarScope} {var option : Text} {limit : Nat}
    (h : before.setFromAnswerWithin var option limit = .ok after) :
    ∃ declared value, before.declarations.get var = some declared ∧
      declared.decodeAnswer option = .ok value ∧
      after = { before with values := before.values.insert var value } := by
  unfold VarScope.setFromAnswerWithin at h
  split at h
  · cases h
  · rename_i declared hdeclared
    split at h
    · cases h
    · rename_i value hdecode
      split at h
      · cases h
      · simp only [VarScope.set, hdeclared, decodeAnswer_matches hdecode, if_true] at h
        cases h
        exact ⟨declared, value, hdeclared, hdecode, rfl⟩

theorem Stores.declarations {receipt : DecisionReceipt} {before after : VarScope}
    (h : Stores base receipt before after) : after.declarations = before.declarations := by
  obtain ⟨_, _, _, _, -, -, hset⟩ := h
  obtain ⟨_, _, -, -, rfl⟩ := setFromAnswerWithin_ok hset
  rfl

structure Extends (before after : Session R J) : Prop where
  id : after.id = before.id
  flow : after.flow = before.flow
  flowRevision : after.flowRevision = before.flowRevision
  limits : after.limits = before.limits
  transcript : before.transcript <+: after.transcript
  decisions : before.decisions <+: after.decisions
  stored : ∀ name, (before.scope.get name).isSome → (after.scope.get name).isSome

theorem Stores.kept {receipt : DecisionReceipt} {before after : VarScope}
    (h : Stores base receipt before after) (name : Text) (hget : (before.get name).isSome) :
    (after.get name).isSome := by
  obtain ⟨_, _, _, _, -, -, hset⟩ := h
  obtain ⟨_, _, -, -, rfl⟩ := setFromAnswerWithin_ok hset
  rw [VarScope.get, Table.get_insert]
  split
  · rfl
  · exact hget

theorem Wrote.extends (h : Wrote seams base session) : Extends base session := by
  induction h with
  | refl => exact ⟨rfl, rfl, rfl, rfl, List.prefix_rfl, List.prefix_rfl, fun _ hget => hget⟩
  | tail _ hwrite ih =>
    cases hwrite with
    | moved | refused => exact { ih with }
    | told => exact { ih with transcript := ih.transcript.trans (List.prefix_append _ _) }
    | answered _ _ hscope =>
      refine { ih with
        decisions := ih.decisions.trans (List.prefix_append _ _)
        stored := fun name hget => ?_ }
      rcases hscope with rfl | hstores
      · exact ih.stored name hget
      · exact hstores.kept name (ih.stored name hget)

abbrev Adds {α : Type} (seams : Seams R J) (base : Session R J) (act : Action R J α) : Prop :=
  Holds (Wrote seams base) act (fun _ => Wrote seams base) (fun _ => Wrote seams base)

theorem Adds.at {α : Type} {act : Action R J α} (h : Adds seams base act)
    (hwrote : Wrote seams base session) : Holds (· = session) act
      (fun _ => Wrote seams base) (fun _ => Wrote seams base) :=
  h.conseq (fun _ hstate => hstate ▸ hwrote) (fun _ _ => id) (fun _ _ => id)

theorem throw_adds {α : Type} (failure : BotError) :
    Adds seams base (throw failure : Action R J α) := Holds.throw fun _ => id

theorem set_adds (hwrote : Wrote seams base session) (hwrite : Write seams base session state) :
    Holds (· = session) (set state : Action R J PUnit) (fun _ => Wrote seams base)
      (fun _ => Wrote seams base) := Holds.set fun _ _ => hwrote.tail hwrite

theorem chargeStep_adds : Adds seams base chargeStep := by
  refine Holds.read fun session h => ?_
  split
  · exact (throw_adds _).at h
  · split
    · exact (throw_adds _).at h
    · exact set_adds h (.moved _ _ _ _ _ _)

theorem chargeRetention_adds (amount : Nat) : Adds seams base (chargeRetention amount) := by
  refine Holds.read fun session h => ?_
  dsimp only
  split
  · exact (throw_adds _).at h
  · split
    · exact (throw_adds _).at h
    · exact set_adds h (.moved _ _ _ _ _ _)

theorem record_adds (node role text : Text) : Adds seams base (record seams node role text) := by
  refine Holds.read fun session h => ?_
  dsimp only
  split
  · exact (throw_adds _).at h
  · exact ((chargeRetention_adds _).at h).bind fun _ => Holds.modify fun _ hstate =>
      hstate.tail (.told node role text)

theorem recordPrompt_adds (node : Text) (options : List Text) :
    Adds seams base (recordPrompt seams node options) := by
  refine Holds.read fun session h => ?_
  dsimp only
  split
  · exact (throw_adds _).at h
  · exact (record_adds _ _ _).at h

theorem ofExcept_adds {α : Type} (result : Except BotError α) :
    Adds seams base (MonadExcept.ofExcept result : Action R J α) :=
  Holds.ofExcept (fun _ _ _ => id) fun _ _ => id

theorem speak_adds (node text : Text) : Adds seams base (speak seams node text) :=
  (Holds.read fun _ h => (ofExcept_adds _).at h).bind fun _ => record_adds _ _ _

theorem finish_adds (node : Text) : Adds seams base (finish node : Action R J Unit) := by
  refine Holds.read fun session h => ?_
  split
  · exact (throw_adds _).at h
  · exact set_adds h (.moved _ _ _ _ _ _)

theorem step_adds (node : Text) (kind : NodeKind) : Adds seams base (step seams node kind) := by
  have goes {act : Action R J Unit} {waits : Bool} (h : Adds seams base act) :
      Adds seams base (act >>= fun _ => pure waits) := h.bind fun _ => Holds.pure fun _ => id
  cases kind with
  | say text =>
    refine goes ((speak_adds node text).bind fun _ => Holds.read fun session h => ?_)
    split
    · exact (throw_adds _).at h
    · exact set_adds h (.moved _ _ _ _ _ _)
  | ask var options routes => exact goes (recordPrompt_adds node options)
  | branch var when then_ otherwise =>
    exact goes (Holds.read fun session h => Holds.bind (Q := fun _ => (· = session))
      (Holds.ofExcept (fun _ _ _ => id) fun _ _ hstate => hstate ▸ h)
      fun _ => set_adds h (.moved _ _ _ _ _ _))
  | handoff target => exact goes (finish_adds node)
  | refer target text => exact goes ((speak_adds node text).bind fun _ => finish_adds node)
  | route dispatch fallback => exact goes (Holds.modify fun _ h => h.tail (.moved _ _ _ _ _ _))
  | end_ => exact goes (finish_adds node)

theorem visit_adds (node : Text) : Adds seams base (visit seams node) := by
  refine chargeStep_adds.bind fun _ => (chargeRetention_adds _).bind fun _ =>
    Holds.bind (Q := fun _ => Wrote seams base)
      (Holds.modify fun _ h => h.tail (.moved _ _ _ _ _ _)) fun _ => Holds.read fun session h => ?_
  split
  · exact (throw_adds _).at h
  · exact (step_adds _ _).at h

theorem driveFor_adds (rounds : Nat) : Adds seams base (driveFor seams rounds) := by
  induction rounds with
  | zero => exact Holds.pure fun _ => id
  | succ rounds ih =>
    refine Holds.read fun session h => ?_
    split
    · exact Holds.pure fun _ hstate => hstate ▸ h
    · refine ((visit_adds _).at h).bind fun waits => ?_
      split
      · exact Holds.pure fun _ => id
      · exact ih

theorem drive_adds : Adds seams base (drive seams) :=
  Holds.read fun _ h => ((driveFor_adds _).at h).bind fun _ => Holds.pure fun _ => id

structure Offers (base : Session R J) (offer : Offer) : Prop where
  asked : base.flow.node offer.turn.node =
    some (.ask offer.turn.var offer.turn.options offer.turn.routes)
  chosen : offer.chosen = elect offer.turn.options offer.turn.routes offer.turn.verdict.resolution
  resolved : ∀ index tier score lead,
    offer.turn.verdict.resolution = .resolved index tier score lead → offer.chosen.isSome

theorem announce_adds (turn : Turn) (resolution : Resolution) :
    Adds seams base (announce seams turn resolution) := by
  cases resolution with
  | staleAlias question option => exact record_adds _ _ _
  | degraded reason => exact record_adds _ _ _
  | _ => exact Holds.pure fun _ => id

theorem select_adds (turn : Turn) (resolution : Resolution) :
    Holds (Wrote seams base) (select turn resolution)
      (fun chosen state => Wrote seams base state ∧
        chosen = elect turn.options turn.routes resolution ∧
        ∀ index tier score lead, resolution = .resolved index tier score lead → chosen.isSome)
      (fun _ => Wrote seams base) := by
  cases resolution with
  | resolved index tier score lead =>
    simp only [select, elect]
    cases turn.options[index]? with
    | none => exact Holds.throw fun _ => id
    | some option =>
      dsimp only [Option.bind_some]
      cases turn.routes.get option with
      | none => exact Holds.throw fun _ => id
      | some target => exact Holds.pure fun _ h => ⟨h, rfl, fun _ _ _ _ _ => rfl⟩
  | _ =>
    refine Holds.pure fun _ h => ⟨h, rfl, ?_⟩
    intro _ _ _ _ hresolved
    cases hresolved

theorem offered_adds (utterance : Text) : Holds (Wrote seams base) (offered seams utterance)
    (fun offer state => Wrote seams base state ∧ Offers base offer) (fun _ => Wrote seams base) := by
  refine Holds.read fun session h => ?_
  have throws (failure : BotError) : Holds (· = session) (throw failure : Action R J Offer)
      (fun offer state => Wrote seams base state ∧ Offers base offer) (fun _ => Wrote seams base) :=
    Holds.throw fun _ hstate => hstate ▸ h
  dsimp only
  split
  · exact throws _
  · split
    · exact throws _
    · split
      · rename_i hask
        rw [h.extends.flow] at hask
        split
        · exact throws _
        · refine (chargeStep_adds.at h).bind fun _ => Holds.bind (Q := fun _ => Wrote seams base)
            (Holds.read fun session h => (set_adds h (.moved _ _ _ _ _ _)).bind fun _ =>
              Holds.pure fun _ => id) fun verdict => (announce_adds _ _).bind fun _ =>
            (select_adds _ _).bind fun chosen => Holds.pure ?_
          rintro state ⟨hstate, hchosen, hresolved⟩
          exact ⟨hstate, hask, hchosen, hresolved⟩
      · exact throws _

theorem Offers.attests {offer : Offer} (h : Offers base offer) (hwrote : Wrote seams base session) :
    Attests seams base (offer.receipt seams session) where
  version := rfl
  issuer := hwrote.extends.id
  document := hwrote.extends.flowRevision
  asked := by
    refine ⟨_, _, _, h.asked, rfl, ?_, ?_⟩
    · exact congrArg (Option.map Prod.fst) h.chosen
    · exact congrArg (Option.map Prod.snd) h.chosen
  resolved := by
    intro index tier score lead hresolved
    exact Option.isSome_map.trans (h.resolved index tier score lead hresolved)

theorem receipted_adds {offer : Offer} (hoffer : Offers base offer) :
    Adds seams base (receipted seams offer) := by
  refine Holds.of_each fun session h => ?_
  have hattests := hoffer.attests h
  let receipt := offer.receipt seams session
  refine Holds.bind (Q := fun _ state => ∃ acceptance journal,
    seams.recordDecision session.journal receipt = (.ok acceptance, journal) ∧
      state = settled session receipt acceptance journal session.scope session.lastUtterance)
    (Holds.read fun state hstate => ?_) fun _ => Holds.of_each ?_
  · subst hstate
    dsimp only
    split
    · rename_i cause hcause
      exact Holds.bind (Q := fun _ => Wrote seams base)
        (set_adds h (.refused (Prod.ext hcause rfl))) fun _ => Holds.throw fun _ => id
    · rename_i acceptance htaken
      exact Holds.set fun _ _ => ⟨acceptance, _, Prod.ext htaken rfl, rfl⟩
  rintro _ ⟨acceptance, journal, hjournal, rfl⟩
  have ends {scope : VarScope} {utterance : Option Text}
      (hscope : scope = session.scope ∨ Stores base receipt session.scope scope) :
      Wrote seams base (settled session receipt acceptance journal scope utterance) :=
    h.tail (.answered hattests hjournal hscope)
  cases hchosen : offer.chosen with
  | none =>
    exact ((record_adds _ _ _).at (ends (.inl rfl))).bind fun _ => recordPrompt_adds _ _
  | some chosen =>
    obtain ⟨option, target⟩ := chosen
    refine Holds.bind (Q := fun _ state => ∃ scope, Stores base receipt session.scope scope ∧
      state = settled session receipt acceptance journal scope (some offer.turn.utterance))
      (Holds.read fun state hstate => ?_) fun _ => Holds.of_each ?_
    · subst hstate
      refine Holds.bind (Q := fun scope state => Stores base receipt session.scope scope)
        (Holds.ofExcept (fun scope hset _ _ => ?_) ?_) fun scope => Holds.set ?_
      · change session.scope.setFromAnswerWithin _ _ (session.limits.get .value) = _ at hset
        rw [h.extends.limits] at hset
        exact ⟨_, _, _, option, hoffer.asked, congrArg (Option.map Prod.fst) hchosen, hset⟩
      · rintro _ _ rfl
        exact ends (.inl rfl)
      · exact fun _ hstores => ⟨scope, hstores, rfl⟩
    · rintro _ ⟨scope, hstores, rfl⟩
      exact ((record_adds _ _ _).at (ends (.inr hstores))).bind fun _ =>
        Holds.bind (Q := fun _ => Wrote seams base)
          (Holds.modify fun _ hstate => hstate.tail (.moved _ _ _ _ _ _)) fun _ => drive_adds

theorem answer_adds (utterance : Text) : Adds seams base (answer seams utterance) := by
  rw [answer_offered]
  refine (offered_adds utterance).bind fun offer => Holds.of_each ?_
  rintro state ⟨h, hoffer⟩
  exact (receipted_adds hoffer).at h

def answers (seams : Seams R J) (utterances : List Text) (session : Session R J) : Session R J :=
  utterances.foldl (fun session utterance => after (answer seams utterance session)) session

theorem Wrote.answers (utterances : List Text) : ∀ session : Session R J,
    Wrote seams base session → Wrote seams base (answers seams utterances session) := by
  induction utterances with
  | nil => exact fun _ => id
  | cons utterance rest ih => exact fun _ h => ih _ (after_of_holds ((answer_adds utterance).at h))

variable {unicode : Unicode} {id : Text} {flow : FlowSpec} {resolver : R} {journal : J}
  {limits : ResourceLimits}

theorem wrote_of_start (h : withComponentsAndLimits seams unicode id flow resolver journal limits =
    .ok session) : ∃ revision effective,
      Wrote seams (fresh id flow revision ⟨flow.vars, .empty⟩ resolver journal effective) session := by
  simp only [withComponentsAndLimits, VarScope.new, bind_eq_ok] at h
  obtain ⟨operator, -, requested, -, _, -, scope, ⟨_, -, hscope⟩, revision, -, hdrive⟩ := h
  cases hscope
  have hends := (@drive_adds R J seams (fresh id flow revision ⟨flow.vars, .empty⟩ resolver journal
    (operator.narrowed requested))).run _ .refl
  split at hdrive
  · rename_i state hrun
    cases hdrive
    rw [hrun] at hends
    exact ⟨_, _, hends⟩
  · cases hdrive

structure MemoryJournal where
  records : List TranscriptEntry
  receipts : List DecisionReceipt

def inMemory (components : Seams R J) : Seams R MemoryJournal where
  resolve := components.resolve
  record journal node role text := { journal with records := journal.records ++ [⟨node, role, text⟩] }
  recordDecision journal receipt :=
    (.ok .inMemory, { journal with receipts := journal.receipts ++ [receipt] })
  optionsRevision := components.optionsRevision
  revisionOf := components.revisionOf

/-- The journal holds what it held, then the session's lines and receipts, each in order. -/
def Mirrors (journal : MemoryJournal) (session : Session R MemoryJournal) : Prop :=
  session.journal = ⟨journal.records ++ session.transcript,
    journal.receipts ++ session.decisions.map RecordedDecision.receipt⟩

theorem journal_mirrors {components : Seams R J} {journal : MemoryJournal}
    {session : Session R MemoryJournal} (hstart : withComponentsAndLimits (inMemory components)
      unicode id flow resolver journal limits = .ok session) (utterances : List Text) :
    Mirrors journal (answers (inMemory components) utterances session) := by
  obtain ⟨revision, effective, hwrote⟩ := wrote_of_start hstart
  have hlast := hwrote.answers utterances
  generalize answers (inMemory components) utterances session = last at hlast
  induction hlast with
  | refl =>
    simp only [Mirrors, fresh, List.append_nil, List.map_nil]
  | tail _ hwrite ih =>
    cases hwrite with
    | moved => exact ih
    | told node role text =>
      simp only [Mirrors] at ih ⊢
      rw [ih]
      simp only [inMemory, List.append_assoc]
    | refused hjournal => cases hjournal
    | answered _ hjournal =>
      cases hjournal
      simp only [Mirrors, settled] at ih ⊢
      rw [ih]
      simp only [List.append_assoc, List.map_append, List.map_cons, List.map_nil]

/-- The value is that of an option one of the decisions selected for the variable. -/
def Receipted (flow : FlowSpec) (decisions : List RecordedDecision) (name : Text) (value : Value) :
    Prop :=
  ∃ decision ∈ decisions, ∃ options routes option declared,
    flow.node decision.receipt.node = some (.ask name options routes) ∧
    decision.receipt.selected = some option ∧
    flow.vars.get name = some declared ∧ declared.decodeAnswer option = .ok value

theorem Receipted.append {decisions : List RecordedDecision} {name : Text} {value : Value}
    (h : Receipted flow decisions name value) (more : List RecordedDecision) :
    Receipted flow (decisions ++ more) name value := by
  obtain ⟨decision, hdecision, hrest⟩ := h
  exact ⟨decision, List.mem_append_left _ hdecision, hrest⟩

/-- No answer, taken or not, takes back a line, a decision or a stored variable. -/
theorem history_append_only (seams : Seams R J) (utterances : List Text) (session : Session R J) :
    Extends session (answers seams utterances session) :=
  (Wrote.answers utterances session .refl).extends

theorem Stores.get {receipt : DecisionReceipt} {before after : VarScope} {name : Text} {value : Value}
    (h : Stores base receipt before after) (hget : after.get name = some value) :
    before.get name = some value ∨ ∃ options routes option declared,
      base.flow.node receipt.node = some (.ask name options routes) ∧
      receipt.selected = some option ∧ before.declarations.get name = some declared ∧
      declared.decodeAnswer option = .ok value := by
  obtain ⟨var, options, routes, option, hask, hselected, hset⟩ := h
  obtain ⟨declared, stored, hdeclared, hdecode, rfl⟩ := setFromAnswerWithin_ok hset
  rw [VarScope.get, Table.get_insert] at hget
  split at hget
  · rename_i hsame
    cases hget
    subst hsame
    exact .inr ⟨options, routes, option, declared, hask, hselected, hdeclared, hdecode⟩
  · exact .inl hget

theorem Wrote.attested (h : Wrote seams base session) :
    ∀ decision ∈ session.decisions, decision ∈ base.decisions ∨ Attests seams base decision.receipt := by
  induction h with
  | refl => exact fun _ => .inl
  | tail _ hwrite ih =>
    cases hwrite with
    | answered hattests =>
      intro decision hdecision
      rcases List.mem_append.mp hdecision with hdecision | hdecision
      · exact ih decision hdecision
      · rw [List.mem_singleton.mp hdecision]
        exact .inr hattests
    | _ => exact ih

theorem Wrote.receipted (h : Wrote seams base session)
    (hscope : base.scope = ⟨base.flow.vars, .empty⟩) :
    session.scope.declarations = base.flow.vars ∧ ∀ name value,
      session.scope.get name = some value → Receipted base.flow session.decisions name value := by
  induction h with
  | refl =>
    rw [hscope]
    exact ⟨rfl, nofun⟩
  | tail _ hwrite ih =>
    cases hwrite with
    | answered _ _ hscope =>
      obtain ⟨hvars, hreceipted⟩ := ih
      rcases hscope with rfl | hstores
      · exact ⟨hvars, fun name value hget => (hreceipted name value hget).append _⟩
      · refine ⟨hstores.declarations.trans hvars, fun name value hget => ?_⟩
        rcases hstores.get hget with hold | ⟨options, routes, option, declared, hnew⟩
        · exact (hreceipted name value hold).append _
        · rw [hvars] at hnew
          exact ⟨_, List.mem_append_right _ List.mem_cons_self, options, routes, option, declared, hnew⟩
    | _ => exact ih

structure Accounts (seams : Seams R J) (session : Session R J) : Prop where
  attested : ∀ decision ∈ session.decisions, Attests seams session decision.receipt
  stored : ∀ name value, session.scope.get name = some value →
    Receipted session.flow session.decisions name value

/-- After any answers every receipt attests a verdict on an ask of the document, and every value
stored is the option that one of them selects. -/
theorem receipts_account (hstart : withComponentsAndLimits seams unicode id flow resolver journal
    limits = .ok session) (utterances : List Text) :
    Accounts seams (answers seams utterances session) := by
  obtain ⟨revision, effective, hwrote⟩ := wrote_of_start hstart
  have hlast := hwrote.answers utterances
  generalize answers seams utterances session = last at hlast
  have hflow := hlast.extends.flow
  refine ⟨fun decision hdecision => ?_, ?_⟩
  · have hattests := (hlast.attested decision hdecision).resolve_left List.not_mem_nil
    exact { hattests with
      issuer := hattests.issuer.trans hlast.extends.id.symm
      document := hattests.document.trans hlast.extends.flowRevision.symm
      asked := by rw [hflow]; exact hattests.asked }
  · rw [hflow]
    exact (hlast.receipted rfl).2

def remembered : Except BotError (Session Unit MemoryJournal) :=
  withComponentsAndLimits (inMemory (always (.resolved 0 .exact 1 1))) latin []
    (oneQuestion ["yes".toList]) () ⟨[], []⟩ .shipped

theorem remembered_isOk : ∃ session, remembered = .ok session := by
  have hstarts : remembered.toOption.isSome = true := by decide +kernel
  cases hopened : remembered with
  | ok session => exact ⟨session, rfl⟩
  | error failure =>
    rw [hopened] at hstarts
    cases hstarts

theorem journal_mirrors_yes : ∃ session, remembered = .ok session ∧
    Mirrors ⟨[], []⟩ (answers (inMemory (always (.resolved 0 .exact 1 1))) ["yes".toList] session) := by
  obtain ⟨session, hstart⟩ := remembered_isOk
  exact ⟨session, hstart, journal_mirrors hstart ["yes".toList]⟩

theorem receipts_account_yes : ∃ session, remembered = .ok session ∧
    Accounts (inMemory (always (.resolved 0 .exact 1 1)))
      (answers (inMemory (always (.resolved 0 .exact 1 1))) ["yes".toList] session) := by
  obtain ⟨session, hstart⟩ := remembered_isOk
  exact ⟨session, hstart, receipts_account hstart ["yes".toList]⟩

end LogicalWorks.Session.Runner
