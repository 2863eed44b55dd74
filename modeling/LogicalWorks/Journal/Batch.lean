import LogicalWorks.Journal.Appends

/-! The batch append beside the same appends made one by one.  Both doors make the same
checks except one: the batch never asks what the sealed history already walked. -/
namespace LogicalWorks.Journal

/-- Each event finds its rung and its room behind the ones before it. -/
def Climbs (wire : Wire) (journal : FileJournal) : List EffectEvent → Prop
  | [] => True
  | event :: rest => ∃ payload, Climbable wire journal event payload ∧
      Climbs wire (journal.accepted wire event payload) rest

def Unwalked (journal : FileJournal) (events : List EffectEvent) : Prop :=
  ∀ event ∈ events, journal.ladder.get event.key = none →
    ∀ entry ∈ journal.folded, entry.alreadyWalked event.key = false

structure BatchAgrees (wire : Wire) (handle : Handle) (events : List EffectEvent) : Prop where
  accepts_iff : (∃ acks next, handle.compareAndAppendAll wire events = (.ok acks, next)) ↔
    ∃ acks next, handle.appendEach wire events = (.ok acks, next)
  same : ∀ acks next, handle.compareAndAppendAll wire events = (.ok acks, next) →
    handle.appendEach wire events = (.ok acks, next)
  unchanged : ∀ cause next, handle.compareAndAppendAll wire events = (.error cause, next) →
    next = handle

variable {wire : Wire} {handle here final : Handle} {first journal : FileJournal}
  {event : EffectEvent} {events before rest : List EffectEvent} {acks : List DurableAck}
  {payload : Bytes} {staging next : Staging}

theorem fence_appended (hfence : handle.fence = .ok ()) :
    (handle.appended wire event payload).fence = .ok () := by
  obtain ⟨hsealed, hpoison, hlength⟩ := fence_ok.mp hfence
  apply fence_ok.mpr
  refine ⟨hsealed, hpoison, ?_⟩
  rw [file_appended, List.length_append, hlength]
  rfl

/-- The walked keys of the tail are those of the whole list, once its first event is held. -/
theorem unwalked_cons :
    Unwalked journal (event :: events) ↔
      journal.refuseWalked event = .ok () ∧
        Unwalked (journal.accepted wire event payload) events := by
  rw [refuseWalked_ok]
  unfold Unwalked FileJournal.accepted FileJournal.accept
  simp only [List.mem_cons, forall_eq_or_imp, Index.get_insert]
  constructor
  · rintro ⟨hfirst, hrest⟩
    refine ⟨hfirst, ?_⟩
    intro other hother hnone
    split at hnone
    · cases hnone
    · exact hrest other hother hnone
  · rintro ⟨hfirst, hrest⟩
    refine ⟨hfirst, ?_⟩
    intro other hother hnone
    by_cases hkey : other.key = event.key
    · rw [hkey] at hnone ⊢
      exact hfirst hnone
    · apply hrest other hother
      rw [if_neg hkey]
      exact hnone

/-- One by one, a list is accepted when both doors' checks hold and nothing in it was
walked. -/
theorem appendEach_iff (hfence : handle.fence = .ok ()) :
    (∃ acks final, handle.appendEach wire events = (.ok acks, final)) ↔
      Climbs wire handle.journal events ∧ Unwalked handle.journal events := by
  induction events generalizing handle with
  | nil =>
    constructor
    · intro _
      refine ⟨trivial, ?_⟩
      intro event hmem
      cases hmem
    · intro _
      exact ⟨[], handle, rfl⟩
  | cons event rest ih =>
    constructor
    · rintro ⟨acks, final, h⟩
      obtain ⟨payload, others, hadmits, -, hrest⟩ := appendEach_cons.mp h
      obtain ⟨hclimbs, hunwalked⟩ := (ih (fence_appended hfence)).mp ⟨others, final, hrest⟩
      exact ⟨⟨payload, hadmits.toClimbable, hclimbs⟩,
        unwalked_cons.mpr ⟨hadmits.walked, hunwalked⟩⟩
    · rintro ⟨⟨payload, hclimbable, hclimbs⟩, hunwalked⟩
      obtain ⟨hwalked, hbehind⟩ := unwalked_cons.mp hunwalked
      obtain ⟨others, final, hrest⟩ := (ih (fence_appended hfence)).mpr ⟨hclimbs, hbehind⟩
      exact ⟨_, final, appendEach_cons.mpr
        ⟨payload, others, ⟨hclimbable, hfence, hwalked⟩, rfl, hrest⟩⟩

theorem fence_of_appendEach_cons
    (h : handle.appendEach wire (event :: rest) = (.ok acks, final)) :
    handle.fence = .ok () := by
  obtain ⟨payload, others, hadmits, -⟩ := appendEach_cons.mp h
  exact hadmits.fenced

structure Staged (first : FileJournal) (before : List EffectEvent) (staging : Staging)
    (journal : FileJournal) : Prop where
  journal_eq : journal = Handle.acceptAll first (before.zip staging.pending)
  length : before.length = staging.pending.length
  position : staging.position = journal.position
  ladder : ∀ key, (staging.staged.get key).or (first.ladder.get key) = journal.ladder.get key
  diskLen : journal.diskLen = first.diskLen + staging.frames.length
  held : journal.committed.length = first.committed.length + before.length

theorem staged_start : Staged journal [] ⟨journal.position, Index.empty, [], []⟩ journal :=
  ⟨rfl, rfl, rfl, fun _ => rfl, rfl, rfl⟩

theorem acceptAll_append (journal : FileJournal)
    (left right : List (EffectEvent × JournalPosition × Nat)) :
    Handle.acceptAll journal (left ++ right) =
      Handle.acceptAll (Handle.acceptAll journal left) right := by
  induction left generalizing journal with
  | nil => rfl
  | cons entry rest ih => exact ih _

/-- One event is staged when it climbs behind what is staged already, and then stands at the
end of the batch. -/
theorem stageEvent_ok (h : Staged first before staging journal)
    (hroom : journal.committed.length < maxJournalEvents) :
    Handle.stageEvent wire first staging event = .ok next ↔
      ∃ payload, Climbable wire journal event payload ∧
        next = ⟨wire.after journal.position payload,
          staging.staged.insert event.key event.kind,
          staging.frames ++ (wire.frameAt journal.position payload).bytes,
          staging.pending ++ [(wire.after journal.position payload,
            (wire.frameAt journal.position payload).bytes.length)]⟩ := by
  unfold Handle.stageEvent FileJournal.boundBytes
  simp only [bind_eq_ok, pure_eq_ok, Prod.exists, require_eq_ok, h.ladder, h.position,
    frame_ok, ← Nat.add_assoc, ← h.diskLen]
  constructor
  · rintro ⟨_, hladder, position, framed, ⟨payload, harchived, hadvances, hsized, rfl, rfl⟩, _,
      hfits, rfl⟩
    exact ⟨payload, ⟨hladder, hroom, harchived, hadvances, hsized, hfits⟩, rfl⟩
  · rintro ⟨payload, hclimbable, rfl⟩
    exact ⟨(), hclimbable.ladder, _, _, ⟨payload, hclimbable.archived, hclimbable.advances,
      hclimbable.sized, rfl, rfl⟩, (), hclimbable.fits, rfl⟩

theorem Staged.push (h : Staged first before staging journal) (event : EffectEvent)
    (payload : Bytes) :
    Staged first (before ++ [event]) ⟨wire.after journal.position payload,
      staging.staged.insert event.key event.kind,
      staging.frames ++ (wire.frameAt journal.position payload).bytes,
      staging.pending ++ [(wire.after journal.position payload,
        (wire.frameAt journal.position payload).bytes.length)]⟩
      (journal.accepted wire event payload) := by
  refine ⟨?_, ?_, rfl, ?_, ?_, ?_⟩
  · rw [List.zip_append h.length, acceptAll_append, ← h.journal_eq]
    rfl
  · simp [h.length]
  · intro key
    change ((staging.staged.insert event.key event.kind).get key).or _ =
      (journal.ladder.insert event.key event.kind).get key
    rw [Index.get_insert, Index.get_insert, ← h.ladder]
    split <;> rfl
  · change journal.diskLen + _ = _
    rw [h.diskLen, List.length_append, Nat.add_assoc]
  · change (journal.committed ++ [_]).length = _
    rw [List.length_append, h.held, List.length_append, List.length_singleton,
      List.length_singleton, Nat.add_assoc]

theorem stageAll_iff (h : Staged first before staging journal)
    (hroom : journal.committed.length + rest.length ≤ maxJournalEvents) :
    (∃ last, Handle.stageAll wire first staging rest = .ok last) ↔ Climbs wire journal rest := by
  induction rest generalizing before staging journal with
  | nil =>
    constructor
    · intro _
      trivial
    · intro _
      exact ⟨staging, rfl⟩
  | cons event rest ih =>
    rw [List.length_cons] at hroom
    have hhere : journal.committed.length < maxJournalEvents := by omega
    have hbehind : ∀ payload : Bytes,
        (journal.accepted wire event payload).committed.length + rest.length ≤
          maxJournalEvents := by
      intro payload
      change (journal.committed ++ [_]).length + rest.length ≤ maxJournalEvents
      rw [List.length_append, List.length_singleton]
      omega
    unfold Handle.stageAll Climbs
    simp only [bind_eq_ok, stageEvent_ok h hhere]
    constructor
    · rintro ⟨last, next, ⟨payload, hclimbable, rfl⟩, hlast⟩
      exact ⟨payload, hclimbable, (ih (h.push event payload) (hbehind payload)).mp ⟨last, hlast⟩⟩
    · rintro ⟨payload, hclimbable, hclimbs⟩
      obtain ⟨last, hlast⟩ := (ih (h.push event payload) (hbehind payload)).mpr hclimbs
      exact ⟨last, _, ⟨payload, hclimbable, rfl⟩, hlast⟩

theorem room_of_climbs (h : Climbs wire journal (event :: rest)) :
    journal.committed.length + (event :: rest).length ≤ maxJournalEvents := by
  induction rest generalizing event journal with
  | nil =>
    obtain ⟨payload, hclimbable, -⟩ := h
    exact hclimbable.room
  | cons other rest ih =>
    obtain ⟨payload, hclimbable, hrest⟩ := h
    have hlength := ih hrest
    change (journal.committed ++ [_]).length + _ ≤ maxJournalEvents at hlength
    rw [List.length_append] at hlength
    simp only [List.length_cons, List.length_nil] at hlength ⊢
    omega

/-- Appended one by one, a staged list leaves the journal, the file and the
acknowledgements the batch leaves. -/
theorem appendEach_of_stageAll (h : Staged first before staging here.journal)
    (hfence : here.fence = .ok ()) (hunwalked : Unwalked here.journal rest)
    (hroom : here.journal.committed.length + rest.length ≤ maxJournalEvents)
    (hstage : Handle.stageAll wire first staging rest = .ok next) :
    ∃ acks final added, here.appendEach wire rest = (.ok acks, final) ∧
      final.journal = Handle.acceptAll first ((before ++ rest).zip next.pending) ∧
      next.pending.map (fun entry => (⟨entry.1, .processCrash⟩ : DurableAck)) =
        staging.pending.map (fun entry => (⟨entry.1, .processCrash⟩ : DurableAck)) ++ acks ∧
      next.frames = staging.frames ++ added ∧
      (rest ≠ [] → final.disk =
        here.disk.write here.journal.path (here.file ++ added)) := by
  induction rest generalizing before staging here with
  | nil =>
    cases hstage
    refine ⟨[], here, [], rfl, ?_, by simp, by simp, by simp⟩
    rw [List.append_nil]
    exact h.journal_eq
  | cons event rest ih =>
    rw [List.length_cons] at hroom
    unfold Handle.stageAll at hstage
    obtain ⟨middle, hmiddle, hbehind⟩ := bind_eq_ok.mp hstage
    obtain ⟨payload, hclimbable, rfl⟩ := (stageEvent_ok h (by omega)).mp hmiddle
    obtain ⟨hwalked, hunwalkedRest⟩ := (@unwalked_cons wire _ _ _ payload).mp hunwalked
    have hadmits : Admits wire here event payload := ⟨hclimbable, hfence, hwalked⟩
    have hpush : Staged first (before ++ [event]) _
        (here.appended wire event payload).journal := h.push event payload
    have hroomRest : (here.appended wire event payload).journal.committed.length +
        rest.length ≤ maxJournalEvents := by
      change (here.journal.committed ++ [_]).length + rest.length ≤ maxJournalEvents
      rw [List.length_append, List.length_singleton]
      omega
    obtain ⟨acks, final, added, happend, hjournal, hacks, hframes, hdisk⟩ :=
      ih hpush (fence_appended hfence) hunwalkedRest hroomRest hbehind
    refine ⟨_, final, (wire.frameAt here.journal.position payload).bytes ++ added,
      appendEach_cons.mpr ⟨payload, acks, hadmits, rfl, happend⟩, ?_, ?_, ?_, ?_⟩
    · rw [hjournal, List.append_assoc, List.singleton_append]
    · rw [hacks]
      simp
    · rw [hframes, List.append_assoc]
    · intro _
      by_cases hlast : rest = []
      · subst hlast
        cases happend
        have hnone : added = [] := by
          cases hbehind
          exact (List.append_right_eq_self.mp hframes.symm)
        rw [hnone, List.append_nil]
        rfl
      · rw [hdisk hlast, file_appended, List.append_assoc]
        exact Disk.write_write _ _ _ _

theorem compareAndAppendAll_ok (hfence : handle.fence = .ok ()) :
    handle.compareAndAppendAll wire (event :: rest) = (.ok acks, final) ↔
      ∃ staging, handle.prepareBatch wire (event :: rest) = .ok staging ∧
        acks = staging.pending.map (fun entry => ⟨entry.1, .processCrash⟩) ∧
        final = ⟨handle.disk.write handle.journal.path (handle.file ++ staging.frames),
          Handle.acceptAll handle.journal ((event :: rest).zip staging.pending)⟩ := by
  unfold Handle.compareAndAppendAll
  simp only [hfence, List.isEmpty_cons, Bool.false_eq_true, if_false]
  cases hprepare : handle.prepareBatch wire (event :: rest) with
  | error cause =>
    constructor
    · intro h
      cases h
    · rintro ⟨staging, h, -⟩
      cases h
  | ok staging =>
    simp only [writeAndSync_of_fence hfence]
    constructor
    · intro h
      cases h
      exact ⟨staging, rfl, rfl, rfl⟩
    · rintro ⟨other, h, rfl, rfl⟩
      cases h
      rfl

theorem prepareBatch_iff :
    (∃ staging, handle.prepareBatch wire (event :: rest) = .ok staging) ↔
      Climbs wire handle.journal (event :: rest) := by
  unfold Handle.prepareBatch FileJournal.boundEvents
  simp only [bind_eq_ok, require_eq_ok]
  constructor
  · rintro ⟨staging, _, hroom, hstage⟩
    exact (stageAll_iff staged_start hroom).mp ⟨staging, hstage⟩
  · intro hclimbs
    have hroom := room_of_climbs hclimbs
    obtain ⟨staging, hstage⟩ := (stageAll_iff staged_start hroom).mpr hclimbs
    exact ⟨staging, (), hroom, hstage⟩

theorem compareAndAppendAll_error {cause : JournalError}
    (h : handle.compareAndAppendAll wire events = (.error cause, final)) : final = handle := by
  unfold Handle.compareAndAppendAll at h
  cases hfence : handle.fence with
  | error refusal =>
    simp only [hfence] at h
    cases h
    rfl
  | ok _ =>
    simp only [hfence] at h
    split at h
    · cases h
    · split at h
      · cases h
        rfl
      · rw [writeAndSync_of_fence hfence] at h
        cases h

/-- The batch agrees with the appends it stands for exactly when an empty one is asked of a
handle the fence lets through, and a list that passes every shared check names no attempt
the sealed history walked. -/
theorem batchAgrees_iff (wire : Wire) (handle : Handle) (events : List EffectEvent) :
    BatchAgrees wire handle events ↔
      (events = [] → handle.fence = .ok ()) ∧
        (events ≠ [] → handle.fence = .ok () → Climbs wire handle.journal events →
          Unwalked handle.journal events) := by
  cases events with
  | nil =>
    constructor
    · intro h
      refine ⟨?_, fun hne => absurd rfl hne⟩
      intro _
      obtain ⟨acks, next, hbatch⟩ := h.accepts_iff.mpr ⟨[], handle, rfl⟩
      unfold Handle.compareAndAppendAll at hbatch
      cases hfence : handle.fence with
      | error cause =>
        simp only [hfence] at hbatch
        cases hbatch
      | ok _ => rfl
    · rintro ⟨hfence, -⟩
      have hbatch : handle.compareAndAppendAll wire [] = (.ok [], handle) := by
        unfold Handle.compareAndAppendAll
        rw [hfence rfl]
        rfl
      refine ⟨⟨fun _ => ⟨[], handle, rfl⟩, fun _ => ⟨[], handle, hbatch⟩⟩, ?_,
        fun cause next => compareAndAppendAll_error⟩
      intro acks next h
      rw [hbatch] at h
      cases h
      rfl
  | cons event rest =>
    constructor
    · intro h
      refine ⟨fun hnil => absurd hnil (List.cons_ne_nil _ _), ?_⟩
      intro _ hfence hclimbs
      obtain ⟨staging, hprepare⟩ := prepareBatch_iff.mpr hclimbs
      have haccepted := h.accepts_iff.mp
        ⟨_, _, (compareAndAppendAll_ok hfence).mpr ⟨staging, hprepare, rfl, rfl⟩⟩
      exact ((appendEach_iff hfence).mp haccepted).2
    · rintro ⟨-, hunwalked⟩
      have hsame : ∀ acks next, handle.compareAndAppendAll wire (event :: rest) =
          (.ok acks, next) → handle.appendEach wire (event :: rest) = (.ok acks, next) := by
        intro acks next h
        have hfence : handle.fence = .ok () := by
          unfold Handle.compareAndAppendAll at h
          cases hfence : handle.fence with
          | error cause =>
            simp only [hfence] at h
            cases h
          | ok _ => rfl
        obtain ⟨staging, hprepare, rfl, rfl⟩ := (compareAndAppendAll_ok hfence).mp h
        have hclimbs := prepareBatch_iff.mp ⟨staging, hprepare⟩
        have hroom := room_of_climbs hclimbs
        unfold Handle.prepareBatch at hprepare
        obtain ⟨_, -, hstage⟩ := bind_eq_ok.mp hprepare
        obtain ⟨acks, final, added, happend, hjournal, hacks, hframes, hdisk⟩ :=
          appendEach_of_stageAll staged_start hfence
            (hunwalked (List.cons_ne_nil _ _) hfence hclimbs) hroom hstage
        rw [happend, hacks, hframes]
        have hfinal : final = ⟨final.disk, final.journal⟩ := rfl
        rw [hfinal, hjournal, hdisk (List.cons_ne_nil _ _)]
        rfl
      refine ⟨⟨?_, ?_⟩, hsame, fun cause next => compareAndAppendAll_error⟩
      · rintro ⟨acks, next, h⟩
        exact ⟨acks, next, hsame acks next h⟩
      · rintro ⟨acks, next, h⟩
        have hfence := fence_of_appendEach_cons h
        obtain ⟨hclimbs, -⟩ := (appendEach_iff hfence).mp ⟨acks, next, h⟩
        obtain ⟨staging, hprepare⟩ := prepareBatch_iff.mpr hclimbs
        exact ⟨_, _, (compareAndAppendAll_ok hfence).mpr ⟨staging, hprepare, rfl, rfl⟩⟩

namespace PlainWire

/-- A checkpoint whose action walked two attempts, the second of which settled. -/
def walkedTwice : Continuation :=
  ⟨2, ⟨2, spell 1 9⟩, [.new (subject 1 2) .outcomeObserved .applied none], []⟩

/-- The first attempt again: the single append refuses it as walked, the batch writes it. -/
theorem batch_admits_walked_attempt :
    ∃ journal after acks next,
      openImpl plain (carriedDisk walkedTwice) (successorPath base) .plain =
          (.ok journal, after) ∧
        (Handle.mk after journal).compareAndAppendAll plain [.intentAdmitted (subject 1 1)] =
          (.ok acks, next) ∧
        ((Handle.mk after journal).compareAndAppend plain journal.position
            (.intentAdmitted (subject 1 1))).1 =
          .error (.attemptAlreadyWalked (subject 1 1) 2) ∧
        ¬ BatchAgrees plain ⟨after, journal⟩ [.intentAdmitted (subject 1 1)] := by
  have hsized : (carry walkedTwice).Sized := by
    decide +kernel
  have hfence : (carriedHandle walkedTwice).fence = .ok () := by
    decide +kernel
  have hclimbs : Climbs plain (carriedHandle walkedTwice).journal
      [.intentAdmitted (subject 1 1)] := by
    refine ⟨eventToBytes (.intentAdmitted (subject 1 1)), ⟨?_, ?_, rfl, ?_, ?_, ?_⟩, trivial⟩
    all_goals decide +kernel
  obtain ⟨staging, hprepare⟩ := prepareBatch_iff.mpr hclimbs
  have hbatch := (compareAndAppendAll_ok hfence).mpr ⟨staging, hprepare, rfl, rfl⟩
  have hrefused : ((carriedHandle walkedTwice).compareAndAppend plain
      (carriedHandle walkedTwice).journal.position (.intentAdmitted (subject 1 1))).1 =
      .error (.attemptAlreadyWalked (subject 1 1) 2) := by
    decide +kernel
  refine ⟨_, _, _, _, open_carried hsized, hbatch, hrefused, ?_⟩
  intro h
  have hwalked := ((appendEach_iff hfence).mp (h.accepts_iff.mp ⟨_, _, hbatch⟩)).2
  have hunwalked := hwalked _ (List.mem_singleton_self _) (by decide +kernel)
    (.new (subject 1 2) .outcomeObserved .applied none) (by decide +kernel)
  exact absurd hunwalked (by decide +kernel)

end PlainWire

end LogicalWorks.Journal
