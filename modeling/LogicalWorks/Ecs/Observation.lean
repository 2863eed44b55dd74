import LogicalWorks.Ecs.Bot

/-! The fold of the observations: what the polls of a tick answered is committed, or none of it
is.  The vectors that hold one slot a chain are one row a chain. -/
namespace LogicalWorks.Ecs

/-- The type a value was erased from, as an identity and as prose. -/
structure Witness where
  id : Nat
  name : String
  deriving DecidableEq, Repr

namespace Witness

def agreesWith (left right : Witness) : Bool := left.id = right.id

end Witness

structure Erased (V : Type) where
  value : V
  witness : Witness
  deriving DecidableEq

/-- Why a source's baseline cannot be trusted. -/
inductive RefreshReason where
  | disconnected
  | watchOverflow
  | staleRemoteKey
  | invalidationFailed
  | superseded
  deriving DecidableEq, Repr

inductive SlotState where
  | nothing
  | admitted
  | unacted
  deriving DecidableEq, Repr

/-- What a chain's committed observation is waiting for, and the revision it was committed
under. -/
structure SlotAdmission where
  state : SlotState
  revision : UInt64
  deriving DecidableEq, Repr

structure SupersededObservation where
  chain : Nat
  revision : UInt64
  deriving DecidableEq, Repr

structure ObservedChain (V : Type) where
  witness : Witness
  observed : Option (Erased V)
  revision : UInt64
  seen : Option UInt64
  committed : SlotAdmission
  invalidated : Option RefreshReason
  deriving DecidableEq

/-- The failure a tick reports: a poll cancelled at its deadline, a source's own error, or a
value that was not its chain's. -/
inductive TickError where
  | pollStalled (chain deadline : Nat)
  | failed (error : BotError)
  | typeMismatch (site : String) (chain : Nat) (expected observed : String)
  deriving DecidableEq, Repr

abbrev PollAnswer (V : Type) : Type := Except BotError (Option (Erased V))

structure ObservedWorld (V : Type) where
  chains : List (ObservedChain V)
  pollBudget : Nat
  polled : List (PollAnswer V)
  revisions : List (Option UInt64)
  moved : List Bool
  superseded : List SupersededObservation
  tickError : Option TickError

namespace ObservedWorld

variable {V : Type}

def beginTick (world : ObservedWorld V) : ObservedWorld V :=
  { world with tickError := none, superseded := [] }

def stage (world : ObservedWorld V) (polled : List (PollAnswer V))
    (revisions : List (Option UInt64)) : ObservedWorld V :=
  { world with polled := polled, revisions := revisions }

def parked (world : ObservedWorld V) : Bool :=
  match world.tickError with
  | none | some (.pollStalled _ _) => false
  | some _ => true

def clearMoved (world : ObservedWorld V) : ObservedWorld V :=
  { world with moved := List.replicate world.chains.length false }

def stalled : PollAnswer V → Bool
  | .error error => EcsBot.isStall error
  | .ok _ => false

/-- What the first pass over the answers finds: the first cancelled poll, the first failure moved
out of its slot, and the answers left. -/
structure Inspected (V : Type) where
  firstStall : Option Nat
  firstError : Option BotError
  polled : List (PollAnswer V)

def inspect : Nat → Option Nat → Option BotError → List (PollAnswer V) → Inspected V
  | _, firstStall, firstError, [] => ⟨firstStall, firstError, []⟩
  | index, firstStall, firstError, .error error :: rest =>
    if EcsBot.isStall error then
      let others := inspect (index + 1) (firstStall.or (some index)) firstError rest
      { others with polled := .ok none :: others.polled }
    else if firstError.isNone then
      let others := inspect (index + 1) firstStall (some error) rest
      { others with polled := .ok none :: others.polled }
    else
      let others := inspect (index + 1) firstStall firstError rest
      { others with polled := .error error :: others.polled }
  | index, firstStall, firstError, .ok answer :: rest =>
    let others := inspect (index + 1) firstStall firstError rest
    { others with polled := .ok answer :: others.polled }

def valueOf : PollAnswer V → Option (Erased V)
  | .ok answer => answer
  | .error _ => none

def answered (polled : List (PollAnswer V)) (index : Nat) : Option (Erased V) :=
  (polled[index]?.map valueOf).join

def mismatchAt (chains : List (ObservedChain V)) (polled : List (PollAnswer V)) (index : Nat) :
    Option TickError := do
  let next ← answered polled index
  let chain ← chains[index]?
  if chain.witness.agreesWith next.witness then none
  else some (.typeMismatch "observe_fold rendezvous" index chain.witness.name next.witness.name)

def mismatch (chains : List (ObservedChain V)) (polled : List (PollAnswer V)) :
    Option TickError :=
  (List.range polled.length).findSome? (mismatchAt chains polled)

def take (chain : ObservedChain V) (value : Erased V) (reported : Option UInt64) :
    ObservedChain V :=
  { chain with
    observed := some value
    revision := chain.revision + 1
    seen := reported
    committed := ⟨.unacted, chain.revision + 1⟩
    invalidated := none }

def commitAll (world : ObservedWorld V) (polled : List (PollAnswer V)) : ObservedWorld V :=
  { world with
    chains := world.chains.mapIdx fun index chain =>
      match answered polled index with
      | some value => take chain value (world.revisions[index]?.join)
      | none => chain
    polled := polled.map fun result => result.map fun _ => none
    moved := (List.range polled.length).map fun index =>
      index < world.chains.length && (answered polled index).isSome
    superseded := (List.range polled.length).filterMap fun index =>
      match world.chains[index]?, answered polled index with
      | some chain, some _ =>
        if chain.committed.state = .unacted then some ⟨index, chain.committed.revision⟩ else none
      | _, _ => none }

/-- Commit what moved, unless a source failed or a value is not its chain's. -/
def rendezvous (world : ObservedWorld V) (polled : List (PollAnswer V)) : ObservedWorld V :=
  match mismatch world.chains polled with
  | some error => { world with tickError := some error, polled := polled }
  | none => world.commitAll polled

def observeFold (world : ObservedWorld V) : ObservedWorld V :=
  if world.parked then world
  else if world.polled.isEmpty then world.clearMoved
  else
    let inspected := inspect 0 none none world.polled
    match inspected.firstStall, inspected.firstError with
    | some chain, _ =>
      rendezvous { world with tickError := some (.pollStalled chain world.pollBudget) }
        inspected.polled
    | none, some error =>
      { world with tickError := some (.failed error), polled := inspected.polled }
    | none, none => rendezvous world inspected.polled

def domainError : PollAnswer V → Option BotError
  | .error error => if EcsBot.isStall error then none else some error
  | .ok _ => none

/-- The error a tick with these answers has to report, if it may commit nothing: the first failure
of a source, else the first value that is not its chain's. -/
def refusal (chains : List (ObservedChain V)) (polled : List (PollAnswer V)) :
    Option TickError :=
  ((polled.findSome? domainError).map .failed).or (mismatch chains polled)

def stallReport (world : ObservedWorld V) : Option TickError :=
  (world.polled.findIdx? stalled).map fun chain => .pollStalled chain world.pollBudget

def committedAt (world : ObservedWorld V) (index : Nat) (chain : ObservedChain V) :
    ObservedChain V :=
  match answered world.polled index with
  | some value => take chain value (world.revisions[index]?.join)
  | none => chain

structure AllOrNothing (before after : ObservedWorld V) : Prop where
  refused : ∀ error, refusal before.chains before.polled = some error →
    after.chains = before.chains ∧ after.tickError = some error
  committed : refusal before.chains before.polled = none →
    after.chains = before.chains.mapIdx before.committedAt ∧
      after.tickError = before.stallReport

variable {world : ObservedWorld V} {polled : List (PollAnswer V)}

theorem inspect_firstStall (index : Nat) (stall : Option Nat) (error : Option BotError) :
    (inspect index stall error polled).firstStall =
      stall.or ((polled.findIdx? stalled).map (index + ·)) := by
  induction polled generalizing index stall error with
  | nil => simp [inspect]
  | cons result rest ih =>
    have hnext (found : Option Nat) :
        found.map (fun place => index + 1 + place) =
          (found.map (· + 1)).map fun place => index + place := by
      cases found with
      | none => rfl
      | some place => exact congrArg some (Nat.add_right_comm index 1 place)
    cases result with
    | ok answer =>
      rw [inspect, List.findIdx?_cons]
      simp only [stalled, Bool.false_eq_true, if_false, ih, hnext]
    | error failure =>
      rw [inspect, List.findIdx?_cons]
      cases hstall : EcsBot.isStall failure with
      | true =>
        simp only [stalled, hstall, if_true, ih, Option.map_some, Nat.add_zero]
        cases stall <;> rfl
      | false =>
        simp only [stalled, hstall, Bool.false_eq_true, if_false, ← hnext]
        split <;> simp only [ih]

theorem inspect_firstError (index : Nat) (stall : Option Nat) (error : Option BotError) :
    (inspect index stall error polled).firstError = error.or (polled.findSome? domainError) := by
  induction polled generalizing index stall error with
  | nil => simp [inspect]
  | cons result rest ih =>
    cases result with
    | ok answer => simp only [inspect, List.findSome?_cons, domainError, ih]
    | error failure =>
      rw [inspect, List.findSome?_cons]
      cases hstall : EcsBot.isStall failure with
      | true => simp only [domainError, hstall, if_true, ih]
      | false =>
        simp only [domainError, hstall, Bool.false_eq_true, if_false]
        cases error with
        | none => simp only [Option.isNone_none, if_true, ih, Option.none_or, Option.some_or]
        | some first =>
          simp only [Option.isNone_some, Bool.false_eq_true, if_false, ih, Option.some_or]

theorem map_valueOf_inspect (index : Nat) (stall : Option Nat) (error : Option BotError) :
    (inspect index stall error polled).polled.map valueOf = polled.map valueOf := by
  induction polled generalizing index stall error with
  | nil => rfl
  | cons result rest ih =>
    cases result with
    | ok answer => exact congrArg (answer :: ·) (ih ..)
    | error failure =>
      rw [inspect]
      split
      · exact congrArg (none :: ·) (ih ..)
      · split <;> exact congrArg (none :: ·) (ih ..)

theorem answered_inspect (index : Nat) (stall : Option Nat) (error : Option BotError) :
    answered (inspect index stall error polled).polled = answered polled := by
  funext place
  unfold answered
  rw [← List.getElem?_map, map_valueOf_inspect, List.getElem?_map]

theorem length_inspect (index : Nat) (stall : Option Nat) (error : Option BotError) :
    (inspect index stall error polled).polled.length = polled.length :=
  calc (inspect index stall error polled).polled.length
      = ((inspect index stall error polled).polled.map valueOf).length :=
        (List.length_map _).symm
    _ = (polled.map valueOf).length := by rw [map_valueOf_inspect]
    _ = polled.length := List.length_map _

theorem mismatch_inspect (chains : List (ObservedChain V)) (index : Nat) (stall : Option Nat)
    (error : Option BotError) :
    mismatch chains (inspect index stall error polled).polled = mismatch chains polled := by
  unfold mismatch mismatchAt
  rw [answered_inspect, length_inspect]

theorem commitAll_chains (staged : ObservedWorld V) (h : answered polled = answered world.polled)
    (hchains : staged.chains = world.chains) (hrevisions : staged.revisions = world.revisions) :
    (staged.commitAll polled).chains = world.chains.mapIdx world.committedAt := by
  unfold commitAll
  simp only [h, hchains, hrevisions]
  rfl

theorem rendezvous_inspect (world staged : ObservedWorld V) (hchains : staged.chains = world.chains)
    (hrevisions : staged.revisions = world.revisions) :
    let after := staged.rendezvous (inspect 0 none none world.polled).polled
    (∀ error, mismatch world.chains world.polled = some error →
      after.chains = world.chains ∧ after.tickError = some error) ∧
    (mismatch world.chains world.polled = none →
      after.chains = world.chains.mapIdx world.committedAt ∧
        after.tickError = staged.tickError) := by
  intro after
  have hafter : after = staged.rendezvous (inspect 0 none none world.polled).polled := rfl
  rw [rendezvous, hchains, mismatch_inspect] at hafter
  constructor
  · intro error herror
    rw [herror] at hafter
    rw [hafter]
    exact ⟨rfl, rfl⟩
  · intro hnone
    rw [hnone] at hafter
    rw [hafter]
    exact ⟨commitAll_chains staged (answered_inspect ..) hchains hrevisions, rfl⟩

/-- Whether a poll was cancelled and another failed for a reason of its own. -/
def Mixed (polled : List (PollAnswer V)) : Prop :=
  (∃ result ∈ polled, stalled result = true) ∧ ∃ result ∈ polled, domainError result ≠ none

theorem findIdx?_stalled_eq_none :
    polled.findIdx? stalled = none ↔ ¬∃ result ∈ polled, stalled result = true := by
  rw [List.findIdx?_eq_none_iff]
  simp

theorem findSome?_domainError_eq_none :
    polled.findSome? domainError = none ↔ ¬∃ result ∈ polled, domainError result ≠ none := by
  rw [List.findSome?_eq_none_iff]
  simp

theorem mismatch_ne_failed {chains : List (ObservedChain V)} {error : BotError} :
    mismatch chains polled ≠ some (.failed error) := by
  intro h
  obtain ⟨index, -, hindex⟩ := List.exists_of_findSome?_eq_some h
  simp only [mismatchAt, Option.bind_eq_bind, Option.bind_eq_some_iff] at hindex
  obtain ⟨next, -, chain, -, hfound⟩ := hindex
  split at hfound <;> cases hfound

theorem committedAt_of_none {staged : ObservedWorld V} (h : answered staged.polled = fun _ => none) :
    staged.chains.mapIdx staged.committedAt = staged.chains := by
  have hsame (index : Nat) (chain : ObservedChain V) : staged.committedAt index chain = chain := by
    unfold committedAt
    rw [h]
  apply List.ext_getElem?
  intro index
  rw [List.getElem?_mapIdx]
  cases staged.chains[index]? with
  | none => rfl
  | some chain => exact congrArg some (hsame index chain)

section Begun

variable {staged : ObservedWorld V} (hclear : staged.tickError = none) (hsome : staged.polled ≠ [])
include hclear hsome

theorem observeFold_stalled {chain : Nat} (hstall : staged.polled.findIdx? stalled = some chain) :
    staged.observeFold =
      rendezvous { staged with tickError := some (.pollStalled chain staged.pollBudget) }
        (inspect 0 none none staged.polled).polled := by
  unfold observeFold parked
  rw [hclear]
  simp [inspect_firstStall, hstall, hsome]

theorem observeFold_failed {error : BotError} (hstall : staged.polled.findIdx? stalled = none)
    (herror : staged.polled.findSome? domainError = some error) :
    staged.observeFold =
      { staged with
        tickError := some (.failed error)
        polled := (inspect 0 none none staged.polled).polled } := by
  unfold observeFold parked
  rw [hclear]
  simp [inspect_firstStall, inspect_firstError, hstall, herror, hsome]

theorem observeFold_clean (hstall : staged.polled.findIdx? stalled = none)
    (herror : staged.polled.findSome? domainError = none) :
    staged.observeFold = rendezvous staged (inspect 0 none none staged.polled).polled := by
  unfold observeFold parked
  rw [hclear]
  simp [inspect_firstStall, inspect_firstError, hstall, herror, hsome]

end Begun

/-- In every tick the observations are committed all together or not at all, and the first failure
is the one reported, unless a poll was cancelled beside one that failed. -/
theorem observeFold_all_or_nothing_iff (world : ObservedWorld V) (polled : List (PollAnswer V))
    (revisions : List (Option UInt64)) :
    AllOrNothing (world.beginTick.stage polled revisions)
        (world.beginTick.stage polled revisions).observeFold ↔ ¬Mixed polled := by
  let staged := world.beginTick.stage polled revisions
  have hclear : staged.tickError = none := rfl
  change AllOrNothing staged staged.observeFold ↔ ¬Mixed staged.polled
  constructor
  · rintro h ⟨hstalled, hfailed⟩
    have hsome : staged.polled ≠ [] := by
      rintro hempty
      rw [hempty] at hstalled
      simp at hstalled
    obtain ⟨chain, hstall⟩ := Option.ne_none_iff_exists'.mp
      (mt findIdx?_stalled_eq_none.mp (not_not.mpr hstalled))
    obtain ⟨error, herror⟩ := Option.ne_none_iff_exists'.mp
      (mt findSome?_domainError_eq_none.mp (not_not.mpr hfailed))
    have hreport := (h.refused (.failed error) (by rw [refusal, herror]; rfl)).2
    rw [observeFold_stalled hclear hsome hstall] at hreport
    obtain ⟨hmismatch, hnone⟩ := rendezvous_inspect staged
      { staged with tickError := some (.pollStalled chain staged.pollBudget) } rfl rfl
    cases hfound : mismatch staged.chains staged.polled with
    | none =>
      rw [(hnone hfound).2] at hreport
      cases hreport
    | some found =>
      rw [(hmismatch found hfound).2] at hreport
      cases hreport
      exact mismatch_ne_failed hfound
  · intro hmixed
    by_cases hsome : staged.polled = []
    · have hnothing : refusal staged.chains staged.polled = none := by
        rw [hsome]
        rfl
      have hfold : staged.observeFold = staged.clearMoved := by
        unfold observeFold parked
        rw [hclear, hsome]
        rfl
      rw [hfold]
      refine ⟨fun error herror => (by rw [hnothing] at herror; cases herror), fun _ => ⟨?_, ?_⟩⟩
      · rw [committedAt_of_none (by rw [hsome]; rfl)]
        rfl
      · unfold stallReport
        rw [hsome]
        rfl
    · cases hstall : staged.polled.findIdx? stalled with
      | some chain =>
        have herror : staged.polled.findSome? domainError = none := by
          refine findSome?_domainError_eq_none.mpr fun hfailed => hmixed ⟨?_, hfailed⟩
          by_contra hnone
          rw [findIdx?_stalled_eq_none.mpr hnone] at hstall
          cases hstall
        obtain ⟨hmismatch, hnone⟩ := rendezvous_inspect staged
          { staged with tickError := some (.pollStalled chain staged.pollBudget) } rfl rfl
        rw [observeFold_stalled hclear hsome hstall]
        refine ⟨fun found hfound => hmismatch found ?_, fun hfound => ?_⟩
        · rwa [refusal, herror] at hfound
        · rw [refusal, herror] at hfound
          rw [stallReport, hstall]
          exact hnone hfound
      | none =>
        cases herror : staged.polled.findSome? domainError with
        | some error =>
          rw [observeFold_failed hclear hsome hstall herror]
          refine ⟨fun found hfound => ⟨rfl, ?_⟩, fun hnone => ?_⟩
          · rw [refusal, herror] at hfound
            exact hfound
          · rw [refusal, herror] at hnone
            cases hnone
        | none =>
          obtain ⟨hmismatch, hnone⟩ := rendezvous_inspect staged staged rfl rfl
          rw [observeFold_clean hclear hsome hstall herror]
          refine ⟨fun found hfound => hmismatch found ?_, fun hfound => ?_⟩
          · rwa [refusal, herror] at hfound
          · rw [refusal, herror] at hfound
            rw [stallReport, hstall]
            exact hnone hfound

def threeFresh : ObservedWorld Nat where
  chains := List.replicate 3 ⟨⟨0, "u64"⟩, none, 0, none, ⟨.nothing, 0⟩, none⟩
  pollBudget := 30
  polled := []
  revisions := []
  moved := []
  superseded := []
  tickError := none

def mixedAnswers : List (PollAnswer Nat) :=
  [.error (.domainError "feed" .refused "closed"), .error (.pollStalled 1),
    .ok (some ⟨7, 0, "u64"⟩)]

/-- The third chain commits its value though the first one's source refused, and the refusal is not
the failure reported. -/
theorem refused_beside_stalled_commits :
    ¬AllOrNothing (threeFresh.beginTick.stage mixedAnswers [none, none, some 4])
      (threeFresh.beginTick.stage mixedAnswers [none, none, some 4]).observeFold := by
  intro h
  have hreport := (h.refused (.failed (.domainError "feed" .refused "closed")) (by decide)).1
  exact absurd hreport (by decide)

end ObservedWorld
end LogicalWorks.Ecs
