import Mathlib.Data.List.Induction
import LogicalWorks.Owner.StorageOwner

/-! One batch of the storage owner with its ordered steps: what each does to the file and
to the owner's state, the one sync that covers them, and the answers that go out.  A fault
of the device is part of the step it strikes. -/
namespace LogicalWorks.Owner.Batch

variable {φ σ ρ ν α ε : Type}

/-- What one ordered step owes the batch after it returns.  `settle` is the fold of a step
whose answer waits for the sync. -/
inductive Stage (σ α ε : Type) where
  | settled (answer : Except ε α)
  | unsynced (answer : α) (bytes : Nat) (settle : σ → σ)
  | committed (answer : α)

def Stage.stagedBytes : Stage σ α ε → Nat
  | .unsynced _ bytes _ => bytes
  | .settled _ | .committed _ => 0

def Stage.owesFlush : Stage σ α ε → Bool
  | .unsynced _ _ _ => true
  | .settled _ | .committed _ => false

/-- An ordered step, over the file and the state it folds into. -/
abbrev Job (φ σ α ε : Type) := φ → σ → Except ε (Stage σ α ε) × φ × σ

structure Request (φ σ α ε : Type) where
  job : Job φ σ α ε
  abandoned : Bool

structure Member (σ α ε : Type) where
  staged : Stage σ α ε
  abandoned : Bool

structure Staging (φ σ α ε : Type) where
  file : φ
  state : σ
  members : List (Member σ α ε)
  stagedBytes : Nat

/-- Run one ordered step.  A step that fails has its failure as its answer. -/
def Staging.take (staging : Staging φ σ α ε) (request : Request φ σ α ε) :
    Staging φ σ α ε :=
  let (outcome, file, state) := request.job staging.file staging.state
  let staged : Stage σ α ε :=
    match outcome with
    | .ok staged => staged
    | .error cause => .settled (.error cause)
  { file, state
    members := staging.members ++ [⟨staged, request.abandoned⟩]
    stagedBytes := staging.stagedBytes + staged.stagedBytes }

/-- Take requests from the front of the ring until a ceiling is met. -/
def Staging.stage (staging : Staging φ σ α ε) : List (Request φ σ α ε) → Staging φ σ α ε
  | [] => staging
  | request :: rest =>
    if maxBatchRecords ≤ staging.members.length ∨ maxBatchBytes ≤ staging.stagedBytes then
      staging
    else (staging.take request).stage rest

def Member.answer (member : Member σ α ε) (flushFailure : Option ε) (state : σ) :
    Except ε α × σ :=
  match member.staged, flushFailure with
  | .settled answer, _ => (answer, state)
  | .unsynced answer _ settle, none => (.ok answer, settle state)
  | .unsynced _ _ _, some cause => (.error cause, state)
  | .committed answer, _ => (.ok answer, state)

/-- What a batch leaves: the file, the state, an answer for each member, and whether the
handle is poisoned by one of them. -/
structure Outcome (φ σ α ε : Type) where
  file : φ
  state : σ
  answers : List (Except ε α)
  failed : Bool

def answerMembers (flushFailure : Option ε) :
    List (Member σ α ε) → Outcome φ σ α ε → Outcome φ σ α ε
  | [], outcome => outcome
  | member :: rest, outcome =>
    let (answer, state) := member.answer flushFailure outcome.state
    answerMembers flushFailure rest
      { outcome with
        state
        answers := outcome.answers ++ [answer]
        failed := outcome.failed || !answer.isOk || member.abandoned }

def runBatch (syncAll : φ → φ) (flushRefusal : ε) (flushed : Bool) (file : φ) (state : σ)
    (requests : List (Request φ σ α ε)) : Outcome φ σ α ε :=
  let staging := Staging.stage ⟨file, state, [], 0⟩ requests
  if staging.members.any fun member => member.staged.owesFlush then
    if flushed then
      answerMembers none staging.members ⟨syncAll staging.file, staging.state, [], false⟩
    else
      answerMembers (some flushRefusal) staging.members ⟨staging.file, staging.state, [], false⟩
  else answerMembers none staging.members ⟨staging.file, staging.state, [], false⟩

/-- Why an append did not reach the device, or what the device or the step answered. -/
inductive SubmitError (ε : Type) where
  | poisoned
  | queueFull
  | device (cause : ε)
  deriving DecidableEq, Repr

/-- A store behind its owner: the file and the state, the two rings, and every answer that
went out with the request it went to. -/
structure Handle (φ σ ρ α ε : Type) where
  file : φ
  state : σ
  pending : List ρ
  waiting : List ρ
  poisoned : Bool
  answers : List (ρ × Except (SubmitError ε) α)

def Member.answered (flushFailure : Option ε) (member : Member σ α ε) : Except ε α :=
  match member.staged, flushFailure with
  | .settled answer, _ => answer
  | .unsynced answer _ _, none => .ok answer
  | .unsynced _ _ _, some cause => .error cause
  | .committed answer, _ => .ok answer

def Member.folded (flushFailure : Option ε) (state : σ) (member : Member σ α ε) : σ :=
  match member.staged, flushFailure with
  | .unsynced _ _ settle, none => settle state
  | _, _ => state

def Staging.close (staging : Staging φ σ α ε) (flushFailure : Option ε) (file : φ) :
    Outcome φ σ α ε where
  file
  state := staging.members.foldl (Member.folded flushFailure) staging.state
  answers := staging.members.map (Member.answered flushFailure)
  failed := staging.members.any fun member =>
    !(member.answered flushFailure).isOk || member.abandoned

theorem Member.answer_eq (member : Member σ α ε) (flushFailure : Option ε) (state : σ) :
    member.answer flushFailure state =
      (member.answered flushFailure, member.folded flushFailure state) := by
  unfold Member.answer Member.answered Member.folded
  cases member.staged with
  | settled answer => rfl
  | unsynced answer bytes settle => cases flushFailure <;> rfl
  | committed answer => rfl

theorem answerMembers_eq (flushFailure : Option ε) (members : List (Member σ α ε)) :
    ∀ outcome : Outcome φ σ α ε, answerMembers flushFailure members outcome =
      { file := outcome.file
        state := members.foldl (Member.folded flushFailure) outcome.state
        answers := outcome.answers ++ members.map (Member.answered flushFailure)
        failed := outcome.failed || members.any fun member =>
          !(member.answered flushFailure).isOk || member.abandoned } := by
  induction members with
  | nil =>
    intro outcome
    simp [answerMembers]
  | cons member rest ih =>
    intro outcome
    unfold answerMembers
    simp only [Member.answer_eq, ih, List.foldl_cons, List.map_cons, List.any_cons,
      List.append_assoc, List.singleton_append, Bool.or_assoc]

theorem Staging.take_ok {staging : Staging φ σ α ε} {request : Request φ σ α ε}
    {staged : Stage σ α ε} {file : φ} {state : σ}
    (h : request.job staging.file staging.state = (.ok staged, file, state)) :
    staging.take request = ⟨file, state, staging.members ++ [⟨staged, request.abandoned⟩],
      staging.stagedBytes + staged.stagedBytes⟩ := by
  unfold Staging.take
  rw [h]

theorem Staging.take_error {staging : Staging φ σ α ε} {request : Request φ σ α ε} {cause : ε}
    {file : φ} {state : σ}
    (h : request.job staging.file staging.state = (.error cause, file, state)) :
    staging.take request = ⟨file, state,
      staging.members ++ [⟨.settled (.error cause), request.abandoned⟩],
      staging.stagedBytes⟩ := by
  unfold Staging.take
  rw [h]
  rfl

theorem Staging.stage_eq (requests : List (Request φ σ α ε)) :
    ∀ staging : Staging φ σ α ε, ∃ count ≤ requests.length,
      staging.stage requests = (requests.take count).foldl Staging.take staging := by
  induction requests with
  | nil =>
    intro staging
    exact ⟨0, Nat.le_refl _, rfl⟩
  | cons request rest ih =>
    intro staging
    unfold Staging.stage
    split
    · exact ⟨0, Nat.zero_le _, rfl⟩
    · obtain ⟨count, hcount, hstage⟩ := ih (staging.take request)
      exact ⟨count + 1, Nat.succ_le_succ hcount, hstage⟩

theorem Staging.length_members (requests : List (Request φ σ α ε)) :
    ∀ staging : Staging φ σ α ε, (requests.foldl Staging.take staging).members.length =
      staging.members.length + requests.length := by
  induction requests with
  | nil =>
    intro staging
    rfl
  | cons request rest ih =>
    intro staging
    rw [List.foldl_cons, ih]
    simp only [Staging.take, List.length_append, List.length_cons, List.length_nil]
    omega

/-- What holds of no request staged and is kept by each ordered step holds of a whole
stage. -/
theorem Staging.stage_invariant {β : Type} {toRequest : β → Request φ σ α ε}
    {I : List β → Staging φ σ α ε → Prop} {start : Staging φ σ α ε} (taken : List β)
    (hstart : I [] start)
    (hstep : ∀ done request staging, request ∈ taken → done ++ [request] <+: taken →
      I done staging → I (done ++ [request]) (staging.take (toRequest request))) :
    I taken ((taken.map toRequest).foldl Staging.take start) := by
  have hfirst : ∀ done, done <+: taken →
      I done ((done.map toRequest).foldl Staging.take start) := by
    intro done
    induction done using List.reverseRecOn with
    | nil =>
      intro _
      exact hstart
    | append_singleton done request ih =>
      intro hdone
      rw [List.map_append, List.foldl_append]
      refine hstep _ _ _ (hdone.subset (by simp)) hdone ?_
      exact ih ((List.prefix_append _ _).trans hdone)
  exact hfirst taken (List.prefix_refl _)

inductive Staging.Ends (syncAll : φ → φ) (flushRefusal : ε) (flushed : Bool)
    (staging : Staging φ σ α ε) : Outcome φ σ α ε → Prop where
  | synced (hflushed : flushed = true)
      (howes : ∃ member ∈ staging.members, member.staged.owesFlush = true) :
      Ends syncAll flushRefusal flushed staging (staging.close none (syncAll staging.file))
  | failed (hflushed : flushed = false)
      (howes : ∃ member ∈ staging.members, member.staged.owesFlush = true) :
      Ends syncAll flushRefusal flushed staging
        (staging.close (some flushRefusal) staging.file)
  | settled (howes : ∀ member ∈ staging.members, member.staged.owesFlush = false) :
      Ends syncAll flushRefusal flushed staging (staging.close none staging.file)

theorem Member.foldl_folded {members : List (Member σ α ε)} {flushFailure : Option ε}
    (h : flushFailure ≠ none ∨ ∀ member ∈ members, member.staged.owesFlush = false) (state : σ) :
    members.foldl (Member.folded flushFailure) state = state := by
  induction members with
  | nil => rfl
  | cons member rest ih =>
    have hone : member.folded flushFailure state = state := by
      unfold Member.folded
      cases hstaged : member.staged with
      | settled answer => rfl
      | committed answer => rfl
      | unsynced answer bytes settle =>
        cases flushFailure with
        | some cause => rfl
        | none =>
          have hmine := (h.resolve_left (fun hne => hne rfl)) member List.mem_cons_self
          rw [hstaged] at hmine
          cases hmine
    rw [List.foldl_cons, hone]
    refine ih (h.imp_right ?_)
    intro hrest later hlater
    exact hrest later (List.mem_cons_of_mem _ hlater)

theorem Staging.Ends.length_answers {syncAll : φ → φ} {flushRefusal : ε} {flushed : Bool}
    {staging : Staging φ σ α ε} {outcome : Outcome φ σ α ε}
    (ends : staging.Ends syncAll flushRefusal flushed outcome) :
    outcome.answers.length = staging.members.length := by
  cases ends with
  | synced => exact List.length_map _
  | failed => exact List.length_map _
  | settled => exact List.length_map _

theorem runBatch_ends (syncAll : φ → φ) (flushRefusal : ε) (flushed : Bool) (file : φ)
    (state : σ) (requests : List (Request φ σ α ε)) :
    ∃ count ≤ requests.length,
      Staging.Ends syncAll flushRefusal flushed
        ((requests.take count).foldl Staging.take ⟨file, state, [], 0⟩)
        (runBatch syncAll flushRefusal flushed file state requests) := by
  obtain ⟨count, hcount, hstage⟩ := Staging.stage_eq requests ⟨file, state, [], 0⟩
  refine ⟨count, hcount, ?_⟩
  unfold runBatch
  simp only [hstage]
  generalize (requests.take count).foldl Staging.take ⟨file, state, [], 0⟩ = staging
  split
  · rename_i howes
    cases flushed with
    | true =>
      rw [if_pos rfl, answerMembers_eq]
      exact .synced rfl (List.any_eq_true.mp howes)
    | false =>
      rw [if_neg (by decide), answerMembers_eq]
      exact .failed rfl (List.any_eq_true.mp howes)
  · rename_i howes
    rw [answerMembers_eq]
    refine .settled ?_
    intro member hmember
    rw [Bool.eq_false_iff]
    intro hmine
    exact howes (List.any_eq_true.mpr ⟨member, hmember, hmine⟩)

namespace Handle

def spawn (file : φ) (state : σ) : Handle φ σ ρ α ε := ⟨file, state, [], [], false, []⟩

def submit (handle : Handle φ σ ρ α ε) (request : ρ) : Handle φ σ ρ α ε :=
  if handle.poisoned then
    { handle with answers := handle.answers ++ [(request, .error .poisoned)] }
  else if handle.pending.length < defaultQueueDepth then
    { handle with pending := handle.pending ++ [request] }
  else if handle.waiting.length < maxWaitingSubmitters then
    { handle with waiting := handle.waiting ++ [request] }
  else { handle with answers := handle.answers ++ [(request, .error .queueFull)] }

def promoteRings : List ρ → List ρ → List ρ × List ρ
  | pending, [] => (pending, [])
  | pending, request :: waiting =>
    if pending.length < defaultQueueDepth then promoteRings (pending ++ [request]) waiting
    else (pending, request :: waiting)

def promote (handle : Handle φ σ ρ α ε) : Handle φ σ ρ α ε :=
  let rings := promoteRings handle.pending handle.waiting
  { handle with pending := rings.1, waiting := rings.2 }

/-- The rings behind a request that was taken are promoted to what they would have been
promoted to without it. -/
theorem promoteRings_cons (request : ρ) (waiting : List ρ) :
    ∀ pending : List ρ, ∃ next, (promoteRings (request :: pending) waiting).1 = request :: next ∧
      promoteRings next (promoteRings (request :: pending) waiting).2 =
        promoteRings pending waiting := by
  induction waiting with
  | nil =>
    intro pending
    exact ⟨pending, rfl, rfl⟩
  | cons parked rest ih =>
    intro pending
    by_cases hroom : (request :: pending).length < defaultQueueDepth
    · have hless : pending.length < defaultQueueDepth := by
        rw [List.length_cons] at hroom
        omega
      obtain ⟨next, hnext, hsame⟩ := ih (pending ++ [parked])
      simp only [promoteRings, if_pos hroom, if_pos hless]
      exact ⟨next, hnext, hsame⟩
    · simp only [promoteRings, if_neg hroom]
      exact ⟨pending, rfl, rfl⟩

structure Served (ν : Type) where
  fault : ν
  abandoned : Bool
  deriving DecidableEq, Repr

/-- The requests that stand before the owner's thread, with what befalls each. -/
def arrived (handle : Handle φ σ ρ α ε) (served : List (Served ν)) : List (ρ × Served ν) :=
  handle.promote.pending.zip served

def ordered (job : ρ → ν → Job φ σ α ε) (arrived : ρ × Served ν) : Request φ σ α ε :=
  ⟨job arrived.1 arrived.2.fault, arrived.2.abandoned⟩

def published (answer : Except ε α) : Except (SubmitError ε) α :=
  match answer with
  | .ok value => .ok value
  | .error cause => .error (.device cause)

theorem published_eq_ok {answer : Except ε α} {value : α} :
    published answer = .ok value ↔ answer = .ok value := by
  cases answer with
  | ok held => simp [published]
  | error cause => simp [published]

theorem isOk_published (answer : Except ε α) : (published answer).isOk = answer.isOk := by
  cases answer <;> rfl

/-- Run one batch over the requests at the front of the ring, as many as `served` says had
arrived and the ceilings allow. -/
def batch (job : ρ → ν → Job φ σ α ε) (syncAll : φ → φ) (flushRefusal : ε)
    (handle : Handle φ σ ρ α ε) (served : List (Served ν)) (flushed : Bool) :
    Handle φ σ ρ α ε :=
  let arrived := handle.arrived served
  let outcome := runBatch syncAll flushRefusal flushed handle.file handle.state
    (arrived.map (ordered job))
  { handle.promote with
    file := outcome.file
    state := outcome.state
    pending := handle.promote.pending.drop outcome.answers.length
    poisoned := handle.poisoned || outcome.failed
    answers := handle.answers ++ (arrived.map Prod.fst).zip (outcome.answers.map published) }

private theorem zip_take_length {β γ : Type} (left : List β) (right : List γ) :
    left.zip right = (left.take right.length).zip right := by
  induction left generalizing right with
  | nil => simp
  | cons first rest ih =>
    cases right with
    | nil => simp
    | cons other others => simp [ih others]

/-- What a batch does to a handle: some of the arrived requests are staged in order, the
batch ends, and the answers go out in the same order. -/
theorem batch_ends (job : ρ → ν → Job φ σ α ε) (syncAll : φ → φ) (flushRefusal : ε)
    (handle : Handle φ σ ρ α ε) (served : List (Served ν)) (flushed : Bool) :
    ∃ taken, taken <+: handle.arrived served ∧ ∃ outcome : Outcome φ σ α ε,
      Staging.Ends syncAll flushRefusal flushed
        ((taken.map (ordered job)).foldl Staging.take ⟨handle.file, handle.state, [], 0⟩)
        outcome ∧
      handle.batch job syncAll flushRefusal served flushed =
        { handle.promote with
          file := outcome.file
          state := outcome.state
          pending := handle.promote.pending.drop taken.length
          poisoned := handle.poisoned || outcome.failed
          answers := handle.answers ++
            (taken.map Prod.fst).zip (outcome.answers.map published) } := by
  obtain ⟨count, hcount, hends⟩ := runBatch_ends syncAll flushRefusal flushed handle.file
    handle.state ((handle.arrived served).map (ordered job))
  rw [List.length_map] at hcount
  generalize houtcome : runBatch syncAll flushRefusal flushed handle.file handle.state
    ((handle.arrived served).map (ordered job)) = outcome at hends
  have hlength := hends.length_answers
  rw [Staging.length_members, List.length_take, List.length_map, Nat.min_eq_left hcount,
    List.length_nil, Nat.zero_add] at hlength
  refine ⟨(handle.arrived served).take count, List.take_prefix _ _, outcome, ?_, ?_⟩
  · rw [List.map_take]
    exact hends
  · have hanswers := zip_take_length ((handle.arrived served).map Prod.fst)
      (outcome.answers.map published)
    rw [List.length_map, hlength] at hanswers
    unfold batch
    rw [List.map_take, List.length_take, Nat.min_eq_left hcount, ← hanswers, ← hlength]
    simp only [houtcome]

/-- The answers that go out are those of the requests of the batch, each of the member staged
for it. -/
theorem mem_answers {taken : List (ρ × Served ν)} {staging : Staging φ σ α ε}
    {flushFailure : Option ε} {file : φ} {answered : ρ × Except (SubmitError ε) α} :
    answered ∈ (taken.map Prod.fst).zip
        ((staging.close flushFailure file).answers.map published) ↔
      ∃ request member, (request, member) ∈ taken.zip staging.members ∧
        answered = (request.1, published (member.answered flushFailure)) := by
  rw [Staging.close, List.map_map, List.zip_map, List.mem_map]
  constructor
  · rintro ⟨⟨request, member⟩, hpair, rfl⟩
    exact ⟨request, member, hpair, rfl⟩
  · rintro ⟨request, member, hpair, rfl⟩
    exact ⟨(request, member), hpair, rfl⟩

theorem batch_head {handle : Handle φ σ ρ α ε} {request : ρ} {rest : List ρ}
    (hhead : handle.promote.pending = request :: rest) (job : ρ → ν → Job φ σ α ε)
    (syncAll : φ → φ) (flushRefusal : ε) (served : Served ν) (flushed : Bool)
    {outcome : Outcome φ σ α ε}
    (houtcome : runBatch syncAll flushRefusal flushed handle.file handle.state
      [ordered job (request, served)] = outcome) :
    handle.batch job syncAll flushRefusal [served] flushed =
      { handle.promote with
        file := outcome.file
        state := outcome.state
        pending := (request :: rest).drop outcome.answers.length
        poisoned := handle.poisoned || outcome.failed
        answers := handle.answers ++ [request].zip (outcome.answers.map published) } := by
  have harrived : handle.arrived [served] = [(request, served)] := by
    unfold arrived
    rw [hhead, List.zip_cons_cons, List.zip_nil_right]
  unfold batch
  simp only [harrived, List.map_cons, List.map_nil, houtcome, hhead]

def Idle (handle : Handle φ σ ρ α ε) : Prop :=
  handle.pending = [] ∧ handle.waiting = [] ∧ handle.poisoned = false

theorem submit_batch {handle : Handle φ σ ρ α ε} (hidle : handle.Idle)
    (job : ρ → ν → Job φ σ α ε) (syncAll : φ → φ) (flushRefusal : ε) (request : ρ)
    (served : Served ν) (flushed : Bool) {outcome : Outcome φ σ α ε}
    (houtcome : runBatch syncAll flushRefusal flushed handle.file handle.state
      [ordered job (request, served)] = outcome) :
    (handle.submit request).batch job syncAll flushRefusal [served] flushed =
      { handle with
        file := outcome.file
        state := outcome.state
        pending := [request].drop outcome.answers.length
        poisoned := outcome.failed
        answers := handle.answers ++ [request].zip (outcome.answers.map published) } := by
  obtain ⟨file, state, pending, waiting, poisoned, answers⟩ := handle
  obtain ⟨hpending, hwaiting, hpoisoned⟩ := hidle
  simp only [] at hpending hwaiting hpoisoned houtcome
  subst hpending hwaiting hpoisoned houtcome
  rfl

end Handle

section

variable {syncAll : φ → φ} {flushRefusal : ε} {file next : φ} {state after : σ}
  {request : Request φ σ α ε}

theorem runBatch_unsynced {answer : α} {bytes : Nat} {settle : σ → σ}
    (hjob : request.job file state = (.ok (.unsynced answer bytes settle), next, after)) :
    runBatch syncAll flushRefusal true file state [request] =
      ⟨syncAll next, settle after, [.ok answer], request.abandoned⟩ := by
  have htake := @Staging.take_ok φ σ α ε ⟨file, state, [], 0⟩ request _ _ _ hjob
  have hstage : Staging.stage ⟨file, state, [], 0⟩ [request] =
      Staging.take ⟨file, state, [], 0⟩ request := rfl
  unfold runBatch
  rw [hstage, htake]
  rfl

theorem runBatch_committed {answer : α} {flushed : Bool}
    (hjob : request.job file state = (.ok (.committed answer), next, after)) :
    runBatch syncAll flushRefusal flushed file state [request] =
      ⟨next, after, [.ok answer], request.abandoned⟩ := by
  have htake := @Staging.take_ok φ σ α ε ⟨file, state, [], 0⟩ request _ _ _ hjob
  have hstage : Staging.stage ⟨file, state, [], 0⟩ [request] =
      Staging.take ⟨file, state, [], 0⟩ request := rfl
  unfold runBatch
  rw [hstage, htake]
  rfl

theorem runBatch_error {cause : ε} {flushed : Bool}
    (hjob : request.job file state = (.error cause, next, after)) :
    runBatch syncAll flushRefusal flushed file state [request] =
      ⟨next, after, [.error cause], true⟩ := by
  have htake := @Staging.take_error φ σ α ε ⟨file, state, [], 0⟩ request _ _ _ hjob
  have hstage : Staging.stage ⟨file, state, [], 0⟩ [request] =
      Staging.take ⟨file, state, [], 0⟩ request := rfl
  unfold runBatch
  rw [hstage, htake]
  rfl

end

end LogicalWorks.Owner.Batch
