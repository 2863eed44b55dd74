import Mathlib.Data.List.Nodup
import LogicalWorks.Lib.Run

/-! The storage owner: two bounded rings of requests, one thread that stages, syncs and
answers batches, and any number of callers.  Each step is what one party does under the
lock, so a run is an interleaving of callers and owner. -/
namespace LogicalWorks.Owner

def defaultQueueDepth : Nat := 64

def maxWaitingSubmitters : Nat := 64

def maxBatchRecords : Nat := 64

def maxBatchBytes : Nat := 256 * 1024

abbrev RequestId := Nat

/-- What one ordered step owes the batch after it returns. -/
inductive Stage where
  | settled (answered : Bool)
  | unsynced (bytes : Nat)
  | committed
  deriving DecidableEq, Repr

def Stage.stagedBytes : Stage → Nat
  | .unsynced bytes => bytes
  | .settled _ | .committed => 0

def Stage.owesFlush : Stage → Bool
  | .unsynced _ => true
  | .settled _ | .committed => false

structure Member where
  request : RequestId
  staged : Stage
  deriving DecidableEq, Repr

inductive Admission where
  | admitted
  | waiting
  | poisoned
  | refused
  deriving DecidableEq, Repr

inductive Phase where
  | promote
  | top
  | ceilings
  | take
  | run (request : RequestId)
  | sync
  | answer (flushFailed failed : Bool)
  | finished
  | released
  deriving DecidableEq, Repr

/-- The shared slot, the gate, and the owner's own variables.  `admitted` and `staged` log
the order requests entered a ring and the order their ordered steps were taken. -/
structure StorageOwner where
  pending : List RequestId
  waiting : List RequestId
  poisoned : Bool
  closed : Bool
  flushes : Nat
  stagedRecords : Nat
  stalled : Bool
  abandoned : List RequestId
  answers : List (RequestId × Bool)
  phase : Phase
  batch : List Member
  stagedBytes : Nat
  nextRequest : RequestId
  admitted : List RequestId
  staged : List RequestId
  deriving DecidableEq, Repr

namespace StorageOwner

def spawn (stalled : Bool) : StorageOwner :=
  ⟨[], [], false, false, 0, 0, stalled, [], [], .promote, [], 0, 0, [], []⟩

def admission (owner : StorageOwner) : Admission :=
  if owner.poisoned then .poisoned
  else if owner.pending.length < defaultQueueDepth then .admitted
  else if owner.waiting.length < maxWaitingSubmitters then .waiting
  else .refused

def hasWork (owner : StorageOwner) : Bool :=
  !owner.pending.isEmpty || !owner.waiting.isEmpty

def enqueue (owner : StorageOwner) : StorageOwner :=
  let request := owner.nextRequest
  let owner := { owner with nextRequest := request + 1 }
  match owner.admission with
  | .poisoned | .refused => owner
  | .admitted =>
    { owner with
      pending := owner.pending ++ [request]
      admitted := owner.admitted ++ [request] }
  | .waiting =>
    { owner with
      waiting := owner.waiting ++ [request]
      admitted := owner.admitted ++ [request] }

def promoteRings : List RequestId → List RequestId → List RequestId × List RequestId
  | pending, [] => (pending, [])
  | pending, request :: waiting =>
    if pending.length < defaultQueueDepth then promoteRings (pending ++ [request]) waiting
    else (pending, request :: waiting)

def promote (owner : StorageOwner) : StorageOwner :=
  let rings := promoteRings owner.pending owner.waiting
  { owner with pending := rings.1, waiting := rings.2 }

def awaitWork (owner : StorageOwner) : StorageOwner :=
  if owner.stalled && !owner.closed then owner
  else
    let owner := owner.promote
    if owner.hasWork then { owner with phase := .ceilings }
    else if owner.closed then { owner with phase := .finished }
    else owner

/-- One turn of the owner's thread.  `stage` is what the ordered step returns, if it is one
that runs, and `flushed` whether a sync of the device returns. -/
def turn (owner : StorageOwner) (stage : Stage) (flushed : Bool) : StorageOwner :=
  match owner.phase with
  | .promote => { owner.promote with batch := [], stagedBytes := 0, phase := .top }
  | .top => if owner.batch.isEmpty then owner.awaitWork else { owner with phase := .ceilings }
  | .ceilings =>
    if maxBatchRecords ≤ owner.batch.length || maxBatchBytes ≤ owner.stagedBytes then
      { owner with phase := .sync }
    else { owner with phase := .take }
  | .take =>
    match owner.pending with
    | [] => { owner with phase := if owner.batch.isEmpty then .finished else .sync }
    | request :: pending => { owner with pending, phase := .run request }
  | .run request =>
    { owner with
      staged := owner.staged ++ [request]
      batch := owner.batch ++ [⟨request, stage⟩]
      stagedBytes := owner.stagedBytes + stage.stagedBytes
      stagedRecords := owner.stagedRecords + 1
      phase := .top }
  | .sync =>
    if owner.batch.any fun member => member.staged.owesFlush then
      { owner with flushes := owner.flushes + 1, phase := .answer (!flushed) false }
    else { owner with phase := .answer false false }
  | .answer flushFailed failed =>
    match owner.batch with
    | [] => { owner with phase := .promote }
    | member :: batch =>
      let answered :=
        match member.staged with
        | .settled answered => answered
        | .unsynced _ => !flushFailed
        | .committed => true
      let failed := failed || !answered || owner.abandoned.contains member.request
      { owner with
        batch
        poisoned := owner.poisoned || failed
        answers := owner.answers ++ [(member.request, answered)]
        phase := .answer flushFailed failed }
  | .finished => { owner with phase := .released }
  | .released => owner

/-- What a party does: a caller submits or walks away, the handle closes, an operator moves
the stall gate, or the owner's thread takes a turn. -/
inductive Action where
  | enqueue
  | abandon (request : RequestId)
  | close
  | stall (stalled : Bool)
  | turn (stage : Stage) (flushed : Bool)
  deriving DecidableEq, Repr

def act (owner : StorageOwner) : Action → StorageOwner
  | .enqueue => owner.enqueue
  | .abandon request => { owner with abandoned := owner.abandoned ++ [request] }
  | .close => { owner with closed := true }
  | .stall stalled => { owner with stalled }
  | .turn stage flushed => owner.turn stage flushed

def Step (owner : StorageOwner) (action : Action) (next : StorageOwner) : Prop :=
  owner.act action = next

def inHand (owner : StorageOwner) : List RequestId :=
  match owner.phase with
  | .run request => [request]
  | _ => []

def ahead (owner : StorageOwner) : List RequestId :=
  owner.staged ++ owner.inHand ++ owner.pending

/-- The order requests are staged in: those staged, the one in hand, and the two rings. -/
def line (owner : StorageOwner) : List RequestId :=
  owner.ahead ++ owner.waiting

def Drained (owner : StorageOwner) : Prop :=
  owner.inHand = [] ∧ owner.pending = [] ∧ owner.waiting = []

/-- A request admitted straight to the pending ring finds nobody waiting. -/
def Fair (owner : StorageOwner) (action : Action) : Prop :=
  action = .enqueue → owner.admission = .admitted → owner.waiting = []

theorem promoteRings_append (pending waiting : List RequestId) :
    (promoteRings pending waiting).1 ++ (promoteRings pending waiting).2 =
      pending ++ waiting := by
  induction waiting generalizing pending with
  | nil => rfl
  | cons request waiting ih =>
    unfold promoteRings
    split
    · rw [ih, List.append_assoc, List.singleton_append]
    · rfl

theorem line_promote (owner : StorageOwner) : owner.promote.line = owner.line := by
  have h := promoteRings_append owner.pending owner.waiting
  change (owner.staged ++ owner.inHand ++ (promoteRings owner.pending owner.waiting).1) ++
    (promoteRings owner.pending owner.waiting).2 =
      (owner.staged ++ owner.inHand ++ owner.pending) ++ owner.waiting
  rw [List.append_assoc, h, ← List.append_assoc]

theorem line_turn (owner : StorageOwner) (stage : Stage) (flushed : Bool) :
    (owner.turn stage flushed).line = owner.line ∧
      (owner.turn stage flushed).admitted = owner.admitted ∧
      (owner.turn stage flushed).nextRequest = owner.nextRequest := by
  have hpromote := owner.line_promote
  unfold turn
  cases hphase : owner.phase with
  | promote =>
    refine ⟨?_, rfl, rfl⟩
    rw [← hpromote]
    simp [line, ahead, inHand, promote, hphase]
  | top =>
    simp only []
    split
    · unfold awaitWork
      split
      · exact ⟨rfl, rfl, rfl⟩
      · simp only []
        split
        · refine ⟨?_, rfl, rfl⟩
          rw [← hpromote]
          simp [line, ahead, inHand, promote, hphase]
        · split
          · refine ⟨?_, rfl, rfl⟩
            rw [← hpromote]
            simp [line, ahead, inHand, promote, hphase]
          · exact ⟨hpromote, rfl, rfl⟩
    · exact ⟨by simp [line, ahead, inHand, hphase], rfl, rfl⟩
  | ceilings =>
    simp only []
    split
    · exact ⟨by simp [line, ahead, inHand, hphase], rfl, rfl⟩
    · exact ⟨by simp [line, ahead, inHand, hphase], rfl, rfl⟩
  | take =>
    simp only []
    cases hpending : owner.pending with
    | nil =>
      refine ⟨?_, rfl, rfl⟩
      simp only [line, ahead, inHand, hphase, hpending]
      cases owner.batch.isEmpty <;> rfl
    | cons request pending => exact ⟨by simp [line, ahead, inHand, hphase, hpending], rfl, rfl⟩
  | run request => exact ⟨by simp [line, ahead, inHand, hphase], rfl, rfl⟩
  | sync =>
    simp only []
    split
    · exact ⟨by simp [line, ahead, inHand, hphase], rfl, rfl⟩
    · exact ⟨by simp [line, ahead, inHand, hphase], rfl, rfl⟩
  | answer flushFailed failed =>
    simp only []
    cases hbatch : owner.batch with
    | nil => exact ⟨by simp [line, ahead, inHand, hphase], rfl, rfl⟩
    | cons member batch => exact ⟨by simp [line, ahead, inHand, hphase], rfl, rfl⟩
  | finished => exact ⟨by simp [line, ahead, inHand, hphase], rfl, rfl⟩
  | released => exact ⟨rfl, rfl, rfl⟩

/-- What one step does to the line and to the log of admissions: nothing, or one fresh
request admitted behind everybody, or one let in ahead of those who wait. -/
inductive LineStep (owner : StorageOwner) (action : Action) (next : StorageOwner) : Prop where
  | unchanged (hline : next.line = owner.line) (hadmitted : next.admitted = owner.admitted)
      (hfresh : owner.nextRequest ≤ next.nextRequest)
  | behind (hline : next.line = owner.line ++ [owner.nextRequest])
      (hadmitted : next.admitted = owner.admitted ++ [owner.nextRequest])
      (hfresh : next.nextRequest = owner.nextRequest + 1)
      (hfair : owner.Fair action)
  | overtaking (haction : action = .enqueue) (hadmission : owner.admission = .admitted)
      (hline : next.line = owner.ahead ++ [owner.nextRequest] ++ owner.waiting)
      (hadmitted : next.admitted = owner.admitted ++ [owner.nextRequest])
      (hfresh : next.nextRequest = owner.nextRequest + 1)

theorem lineStep_enqueue (owner : StorageOwner) :
    LineStep owner .enqueue owner.enqueue := by
  have hsame : ({ owner with nextRequest := owner.nextRequest + 1 } : StorageOwner).admission =
      owner.admission := rfl
  unfold enqueue
  simp only [hsame]
  cases hadmission : owner.admission with
  | poisoned => exact .unchanged rfl rfl (Nat.le_succ _)
  | refused => exact .unchanged rfl rfl (Nat.le_succ _)
  | admitted =>
    refine .overtaking rfl hadmission ?_ rfl rfl
    simp [line, ahead, inHand]
  | waiting =>
    refine .behind ?_ rfl rfl ?_
    · simp [line, ahead, inHand]
    · intro _ hother
      rw [hadmission] at hother
      cases hother

theorem lineStep {owner next : StorageOwner} {action : Action}
    (h : owner.Step action next) : LineStep owner action next := by
  subst h
  cases action with
  | enqueue => exact owner.lineStep_enqueue
  | abandon request => exact .unchanged rfl rfl (Nat.le_refl _)
  | close => exact .unchanged rfl rfl (Nat.le_refl _)
  | stall stalled => exact .unchanged rfl rfl (Nat.le_refl _)
  | turn stage flushed =>
    obtain ⟨hline, hadmitted, hnext⟩ := owner.line_turn stage flushed
    exact .unchanged hline hadmitted (Nat.le_of_eq hnext.symm)

theorem line_fair {owner next : StorageOwner} {action : Action}
    (hline : owner.line = owner.admitted) (hfair : owner.Fair action)
    (h : owner.Step action next) : next.line = next.admitted := by
  cases lineStep h with
  | unchanged hsame hadmitted hfresh => rw [hsame, hadmitted, hline]
  | behind hsame hadmitted hfresh hbehind => rw [hsame, hadmitted, hline]
  | overtaking haction hadmission hsame hadmitted hfresh =>
    have hwaiting := hfair haction hadmission
    have hahead : owner.ahead = owner.line := by simp [line, hwaiting]
    rw [hsame, hadmitted, hwaiting, List.append_nil, hahead, hline]

structure Tracked (owner : StorageOwner) : Prop where
  perm : owner.line.Perm owner.admitted
  nodup : owner.admitted.Nodup
  fresh : ∀ request ∈ owner.admitted, request < owner.nextRequest

theorem tracked_spawn (stalled : Bool) : (spawn stalled).Tracked :=
  ⟨List.Perm.refl _, List.nodup_nil, by simp [spawn]⟩

theorem tracked_admit {owner next : StorageOwner} (h : owner.Tracked)
    (hperm : next.line.Perm (owner.line ++ [owner.nextRequest]))
    (hadmitted : next.admitted = owner.admitted ++ [owner.nextRequest])
    (hfresh : next.nextRequest = owner.nextRequest + 1) : next.Tracked where
  perm := by
    rw [hadmitted]
    exact hperm.trans (h.perm.append_right _)
  nodup := by
    rw [hadmitted]
    refine List.nodup_append.mpr ⟨h.nodup, List.nodup_singleton _, ?_⟩
    intro request hrequest other hother heq
    have hless := h.fresh request hrequest
    rw [heq, List.mem_singleton.mp hother] at hless
    exact Nat.lt_irrefl _ hless
  fresh := by
    intro request hrequest
    rw [hadmitted] at hrequest
    rw [hfresh]
    rcases List.mem_append.mp hrequest with hrequest | hrequest
    · exact Nat.lt_succ_of_lt (h.fresh request hrequest)
    · rw [List.mem_singleton.mp hrequest]
      exact Nat.lt_succ_self _

theorem tracked_step {owner next : StorageOwner} {action : Action} (h : owner.Tracked)
    (hstep : owner.Step action next) : next.Tracked := by
  cases lineStep hstep with
  | unchanged hline hadmitted hfresh =>
    refine ⟨?_, ?_, ?_⟩
    · rw [hline, hadmitted]
      exact h.perm
    · rw [hadmitted]
      exact h.nodup
    · intro request hrequest
      rw [hadmitted] at hrequest
      exact Nat.lt_of_lt_of_le (h.fresh request hrequest) hfresh
  | behind hline hadmitted hfresh hfair =>
    apply tracked_admit h _ hadmitted hfresh
    rw [hline]
  | overtaking haction hadmission hline hadmitted hfresh =>
    apply tracked_admit h _ hadmitted hfresh
    rw [hline, line, List.append_assoc, List.append_assoc]
    exact List.perm_append_comm.append_left owner.ahead

/-- Two requests stand in the line against the order they were admitted in. -/
def Overtaken (owner : StorageOwner) : Prop :=
  ∃ first second, [first, second].Sublist owner.admitted ∧
    [second, first].Sublist owner.line

theorem overtaken_of_unfair {owner next : StorageOwner} {action : Action} (h : owner.Tracked)
    (hunfair : ¬ owner.Fair action) (hstep : owner.Step action next) : next.Overtaken := by
  unfold Fair at hunfair
  push Not at hunfair
  obtain ⟨rfl, hadmission, hwaiting⟩ := hunfair
  obtain ⟨first, others, hothers⟩ := List.exists_cons_of_ne_nil hwaiting
  have hsame : ({ owner with nextRequest := owner.nextRequest + 1 } :
      StorageOwner).admission = .admitted := hadmission
  have hnext : next = { owner with
      nextRequest := owner.nextRequest + 1
      pending := owner.pending ++ [owner.nextRequest]
      admitted := owner.admitted ++ [owner.nextRequest] } := by
    rw [← hstep]
    simp only [act, enqueue, hsame]
  refine ⟨first, owner.nextRequest, ?_, ?_⟩
  · have hfirst : first ∈ owner.admitted := by
      apply h.perm.mem_iff.mp
      rw [line, hothers]
      simp
    rw [hnext]
    exact (List.singleton_sublist.mpr hfirst).append (List.Sublist.refl _)
  · have hline : next.line = owner.ahead ++ ([owner.nextRequest, first] ++ others) := by
      rw [hnext]
      simp [line, ahead, inHand, hothers]
    rw [hline]
    exact (List.sublist_append_left _ others).trans (List.sublist_append_right _ _)

theorem overtaken_step {owner next : StorageOwner} {action : Action} (h : owner.Overtaken)
    (hstep : owner.Step action next) : next.Overtaken := by
  obtain ⟨first, second, hadmission, hline⟩ := h
  cases lineStep hstep with
  | unchanged hsame hadmitted hfresh =>
    exact ⟨first, second, by rwa [hadmitted], by rwa [hsame]⟩
  | behind hsame hadmitted hfresh hfair =>
    refine ⟨first, second, ?_, ?_⟩
    · rw [hadmitted]
      exact hadmission.trans (List.sublist_append_left _ _)
    · rw [hsame]
      exact hline.trans (List.sublist_append_left _ _)
  | overtaking haction hfull hsame hadmitted hfresh =>
    refine ⟨first, second, ?_, ?_⟩
    · rw [hadmitted]
      exact hadmission.trans (List.sublist_append_left _ _)
    · rw [hsame]
      apply hline.trans
      exact (List.sublist_append_left _ _).append (List.Sublist.refl _)

def InOrder (owner : StorageOwner) : Prop :=
  ∀ first second, [first, second].Sublist owner.admitted → second ∈ owner.staged →
    [first, second].Sublist owner.staged

theorem inOrder_of_line {owner : StorageOwner} (h : owner.Tracked)
    (hline : owner.line = owner.admitted) : owner.InOrder := by
  intro first second hadmission hsecond
  have hsplit : owner.admitted =
      owner.staged ++ (owner.inHand ++ owner.pending ++ owner.waiting) := by
    rw [← hline]
    simp [line, ahead]
  have hnodup := h.nodup
  rw [hsplit] at hadmission hnodup
  obtain ⟨left, right, heq, hleft, hright⟩ := List.sublist_append_iff.mp hadmission
  cases right with
  | nil =>
    rw [heq, List.append_nil]
    exact hleft
  | cons request others =>
    -- the last of the two would stand behind the staged ones, where it is not
    have hlast : (left ++ request :: others).getLast? = some second := by
      rw [← heq]
      rfl
    rw [List.getLast?_append_of_ne_nil _ (by simp)] at hlast
    have hbehind := hright.subset (List.mem_of_getLast? hlast)
    exact absurd rfl ((List.nodup_append.mp hnodup).2.2 second hsecond second hbehind)

private theorem not_both_orders {first second : RequestId} {requests : List RequestId}
    (hnodup : requests.Nodup) (hforth : [first, second].Sublist requests)
    (hback : [second, first].Sublist requests) : False := by
  induction requests with
  | nil => cases hforth
  | cons request rest ih =>
    obtain ⟨hfresh, hrest⟩ := List.nodup_cons.mp hnodup
    cases hforth with
    | cons _ hforth =>
      cases hback with
      | cons _ hback => exact ih hrest hforth hback
      | cons_cons _ hback => exact hfresh (hforth.subset (by simp))
    | cons_cons _ hforth =>
      cases hback with
      | cons _ hback => exact hfresh (hback.subset (by simp))
      | cons_cons _ hback => exact hfresh (hforth.subset (by simp))

theorem not_inOrder {owner : StorageOwner} (h : owner.Tracked) (hdrained : owner.Drained)
    (hovertaken : owner.Overtaken) : ¬ owner.InOrder := by
  intro hinOrder
  obtain ⟨first, second, hadmission, hline⟩ := hovertaken
  obtain ⟨hhand, hpending, hwaiting⟩ := hdrained
  have hstaged : owner.line = owner.staged := by
    simp [line, ahead, hhand, hpending, hwaiting]
  have hnodup : owner.line.Nodup := h.perm.nodup_iff.mpr h.nodup
  rw [hstaged] at hline hnodup
  exact not_both_orders hnodup
    (hinOrder first second hadmission (hline.subset (by simp))) hline

/-- Requests are staged in the order of admission in every run whose admissions to the
pending ring find nobody waiting; and a run that drained kept the order only so. -/
theorem staging_order {stalled : Bool} {trace : List (StorageOwner × Action)}
    {owner : StorageOwner} (run : Run Step (spawn stalled) trace owner) :
    ((∀ taken ∈ trace, taken.1.Fair taken.2) → owner.InOrder) ∧
      (owner.Drained → (owner.InOrder ↔ ∀ taken ∈ trace, taken.1.Fair taken.2)) := by
  have htracked : owner.Tracked :=
    run.always (tracked_spawn stalled) fun state label next hstate => tracked_step hstate
  have hfair : (∀ taken ∈ trace, taken.1.Fair taken.2) → owner.InOrder := by
    intro hallowed
    have hline : owner.line = owner.admitted := by
      apply run.invariant (I := fun state => state.line = state.admitted) rfl _ hallowed
      intro state action next hstate hallow hstep
      exact line_fair hstate hallow hstep
    exact inOrder_of_line htracked hline
  refine ⟨hfair, fun hdrained => ⟨?_, hfair⟩⟩
  intro hinOrder
  by_contra hunfair
  push Not at hunfair
  have hovertaken : owner.Overtaken := run.persists (tracked_spawn stalled)
    (fun state label next hstate => tracked_step hstate)
    (fun state label next hstate hbad hstep => overtaken_of_unfair hstate hbad hstep)
    (fun state label next hstate hlate hstep => overtaken_step hlate hstep) hunfair
  exact not_inOrder htracked hdrained hovertaken hinOrder

def twoSubmitters : List Action :=
  [.enqueue, .enqueue] ++ List.replicate 9 (.turn .committed true)

/-- Two requests are staged one after the other in a single batch. -/
theorem staging_order_twoSubmitters :
    (twoSubmitters.foldl act (spawn false)).staged = [0, 1] ∧
      (twoSubmitters.foldl act (spawn false)).InOrder := by
  refine ⟨by decide, ?_⟩
  apply (staging_order (Run.ofActions act (spawn false) twoSubmitters)).1
  intro taken htaken _ _
  have hwaiting : ∀ taken ∈ traceOf act (spawn false) twoSubmitters,
      taken.1.waiting = [] := by
    decide
  exact hwaiting taken htaken

/-- Sixty-five submitters, one request taken, and one more submitter: the sixty-sixth is let
into the pending ring ahead of the sixty-fifth, who waits, and is staged before it. -/
def overtakingActions : List Action :=
  List.replicate 65 .enqueue ++ List.replicate 4 (.turn .committed true) ++ [.enqueue] ++
    List.replicate 327 (.turn .committed true)

theorem overtaking_submitter :
    ¬ (overtakingActions.foldl act (spawn false)).InOrder := by
  intro hinOrder
  have hsecond : [64, 65].Sublist (overtakingActions.foldl act (spawn false)).staged :=
    hinOrder 64 65 (by decide +kernel) (by decide +kernel)
  revert hsecond
  decide +kernel

end StorageOwner

end LogicalWorks.Owner
