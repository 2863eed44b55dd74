import LogicalWorks.Journal.Appends

/-! A reopened file answers for the handle that wrote it: when the fence it rebuilds is the
one the live handle held. -/
namespace LogicalWorks.Journal

structure Rebuilt (live reopened : FileJournal) : Prop where
  committed : reopened.committed = live.committed
  position : reopened.position = live.position
  ladder : reopened.ladder = live.ladder
  outcomes : reopened.outcomes = live.outcomes
  diskLen : reopened.diskLen = live.diskLen
  chainFrom : reopened.chainFrom = live.chainFrom
  folded : reopened.folded = live.folded

/-- Once the handle is gone its file opens, as any kind of handle, with the fence the live
one held: each key is allowed the same kinds, and no handoff or outcome of `events` is
accepted again. -/
def RebuildsFence (wire : Wire) (handle : Handle) (events : List EffectEvent) : Prop :=
  ∀ kind, ∃ reopened after,
    openImpl wire (handle.disk.release handle.journal.path) handle.journal.path kind =
      (.ok reopened, after) ∧
    Rebuilt handle.journal reopened ∧
    (∀ key, nextAllowedOf (reopened.ladder.get key) =
      nextAllowedOf (handle.journal.ladder.get key)) ∧
    ∀ event ∈ events, event.kind ≠ .intentAdmitted → event.kind ≠ .verified →
      ∀ again : EffectEvent, again.key = event.key → again.kind = event.kind →
        ∀ tail ack next,
          (Handle.mk after reopened).compareAndAppend wire tail again ≠ (.ok ack, next)

variable {wire : Wire} {handle final : Handle} {events : List EffectEvent}
  {acks : List DurableAck} {kind : OpenKind} {state : ScanState}

theorem refused_again {event again : EffectEvent} (hkey : again.key = event.key)
    (hkind : again.kind = event.kind) (hverified : event.kind ≠ .verified)
    (hrank : rank (some event.kind) ≤ rank (handle.journal.ladder.get event.key))
    (tail : JournalPosition) (ack : DurableAck) (next : Handle) :
    handle.compareAndAppend wire tail again ≠ (.ok ack, next) := by
  intro h
  obtain ⟨-, payload, hadmits, -, -⟩ := compareAndAppend_ok.mp h
  have hladder := hadmits.ladder
  rw [hkey, hkind] at hladder
  rcases rank_lt_of_nextAllowed hladder with htop | hlt
  · exact hverified htop
  · omega

/-- The ladder a reopened file rebuilds puts what the checkpoint holds over what the file's
own events reached. -/
theorem ladder_rebuilt {path : JournalPath} {first last : ScanState} {repaired : Bool}
    (hcarried : last.carried = first.carried)
    (hentries : last.entries.map JournalEntry.event =
      first.entries.map JournalEntry.event ++ events)
    (hstart : handle.journal = .ofState wire path kind first repaired)
    (happend : handle.appendEach wire events = (.ok acks, final)) (other : OpenKind) :
    (FileJournal.ofState wire path other last false).ladder = final.journal.ladder ↔
      ∀ event ∈ events, ∀ rung,
        (Index.empty.insertAll (heldRungs first.carried)).get event.key = some rung →
          rung = .verified := by
  have hheld : ∀ {key rung}, (Index.empty.insertAll (heldRungs first.carried)).get key = some rung →
      handle.journal.ladder.get key = some rung := by
    intro key rung h
    rw [hstart, ladder_ofState, h]
    rfl
  constructor
  · intro hsame event hmem rung hrung
    have hreopened : (FileJournal.ofState wire path other last false).ladder.get event.key =
        some rung := by
      rw [ladder_ofState, hcarried, hrung]
      rfl
    have hmove := (rank_of_mem_appendEach happend hmem).2
    rw [← hsame, hreopened, hheld hrung] at hmove
    rcases hmove with hverified | hlt
    · exact Option.some.inj hverified
    · omega
  · intro hall
    apply Index.ext
    intro key
    rw [ladder_appendEach happend, Index.get_insertAll handle.journal.ladder, hstart,
      ladder_ofState, ladder_ofState, hcarried, hentries, rungs, List.map_append,
      Index.insertAll_append, Index.get_insertAll (Index.empty.insertAll _)]
    cases hrung : (Index.empty.insertAll (heldRungs first.carried)).get key with
    | none => rfl
    | some rung =>
      cases hrun : (Index.empty.insertAll (rungs events)).get key with
      | none =>
        rw [rungs] at hrun
        rw [hrun]
        rfl
      | some reached =>
        have hmem := Index.mem_of_get_insertAll hrun
        obtain ⟨event, hevent, hpair⟩ := List.mem_map.mp hmem
        obtain ⟨hkey, -⟩ := Prod.mk.inj hpair
        rw [← hkey] at hrung
        have htop := hall event hevent rung hrung
        have hup := rank_appendEach happend event.key
        rw [hheld hrung, htop] at hup
        have hfinal := eq_verified_of_rank hup
        rw [ladder_appendEach happend, Index.get_insertAll, hkey, hrun] at hfinal
        rw [rungs] at hrun
        rw [hrun, htop]
        exact hfinal.symm

theorem rebuildsFence_of_mirrors {first last : ScanState} {repaired : Bool}
    {frames : List Frame} (hmirrors : Mirrors wire final kind repaired frames last)
    (hauthority : superseding wire final.disk final.journal.path last.ownSeal = none)
    (hcarried : last.carried = first.carried)
    (hentries : last.entries.map JournalEntry.event =
      first.entries.map JournalEntry.event ++ events)
    (hstart : handle.journal = .ofState wire handle.journal.path kind first repaired)
    (happend : handle.appendEach wire events = (.ok acks, final)) :
    RebuildsFence wire final events ↔ ∀ event ∈ events, ∀ rung,
      (Index.empty.insertAll (heldRungs first.carried)).get event.key = some rung →
        rung = .verified := by
  rw [← ladder_rebuilt hcarried hentries hstart happend kind]
  constructor
  · intro h
    obtain ⟨reopened, after, hopen, hrebuilt, -⟩ := h kind
    rw [hmirrors.reopen hauthority kind] at hopen
    cases hopen
    rw [path_appendEach happend] at hrebuilt
    exact hrebuilt.ladder
  · intro hladder other
    have hopen := hmirrors.reopen hauthority other
    have hsame : (FileJournal.ofState wire final.journal.path other last false).ladder =
        final.journal.ladder := hladder
    refine ⟨_, _, hopen, ?_, ?_, ?_⟩
    · have hjournal := hmirrors.journal
      refine ⟨?_, ?_, hsame, ?_, ?_, ?_, ?_⟩
      all_goals
        rw [hjournal]
        rfl
    · intro key
      rw [hsame]
    · intro event hmem _ hverified again hkey hagain tail ack next
      apply refused_again hkey hagain hverified
      change _ ≤ rank ((FileJournal.ofState wire final.journal.path other last false).ladder.get
        event.key)
      rw [hsame]
      exact (rank_of_mem_appendEach happend hmem).1

/-- A successor reopens with the fence its live handle held exactly when nothing was written
behind the file's own seal, and nothing was accepted on a key the checkpoint holds below
`Verified`. -/
theorem rebuildsFence_iff {disk after : Disk} {path : JournalPath} {journal : FileJournal}
    {checkpoint : Continuation} (lawful : wire.Lawful)
    (hopen : openImpl wire disk path kind = (.ok journal, after))
    (hsuccessor : journal.checkpoint = some checkpoint)
    (happend : (Handle.mk after journal).appendEach wire events = (.ok acks, final)) :
    RebuildsFence wire final events ↔
      (events = [] ∨ journal.ownSeal = none) ∧
        ∀ event ∈ events, ∀ rung, checkpoint.heldRung event.key = some rung →
          rung = .verified := by
  obtain ⟨frames, state, left, repaired, hopenable, hfile, hjournal, hafter, hmirrors⟩ :=
    mirrors_of_open hopen
  have hcarried : state.carried = some checkpoint := by
    rw [← hsuccessor, hjournal]
    rfl
  have hseal : journal.ownSeal = state.ownSeal := by
    rw [hjournal]
    rfl
  have hpath : journal.path = path := by
    rw [hjournal]
    rfl
  have hstart : journal = .ofState wire journal.path kind state repaired := by
    rw [hpath]
    exact hjournal
  have hheld : ∀ key, checkpoint.heldRung key =
      (Index.empty.insertAll (heldRungs state.carried)).get key := by
    intro key
    rw [hcarried]
    rfl
  simp only [hheld]
  by_cases hclosed : state.ownSeal = none
  · obtain ⟨frames', last, hlast, hlastSeal, hlastCarried, -, hentries⟩ :=
      hmirrors.appendEach lawful hclosed happend
    rw [rebuildsFence_of_mirrors hlast (by rw [hlastSeal]; rfl) hlastCarried hentries hstart happend,
      hseal, hclosed]
    simp
  · rw [hseal]
    by_cases hnone : events = []
    · subst hnone
      cases happend
      have hauthority : superseding wire after journal.path state.ownSeal = none := by
        rw [hafter, hpath]
        exact superseding_of_open hopenable hfile
      rw [rebuildsFence_of_mirrors hmirrors hauthority rfl (by simp) hstart rfl]
      simp
    · constructor
      · intro h
        obtain ⟨reopened, after', hopen', -⟩ := h kind
        obtain ⟨others, hlength, hsized, hothers⟩ := file_appendEach happend
        have hbytes : (final.disk.release final.journal.path).file final.journal.path =
            framesBytes (frames ++ others) := by
          rw [Disk.file_release, framesBytes_append]
          have hheldFile := Disk.file_of_files hmirrors.file
          rw [← hheldFile]
          exact hothers
        have hall : ∀ frame ∈ frames ++ others, frame.Sized := by
          intro frame hframe
          rcases List.mem_append.mp hframe with hframe | hframe
          · exact hmirrors.sized frame hframe
          · exact hsized frame hframe
        obtain ⟨last, hlast⟩ := openable_of_openImpl hopen' hall hbytes
        obtain ⟨middle, hfirst, hbehind⟩ := scanFrames_append.mp hlast.scanned
        rw [hmirrors.scanned] at hfirst
        cases hfirst
        cases others with
        | nil => exact absurd (List.length_eq_zero_iff.mp hlength.symm) hnone
        | cons frame rest => exact absurd hbehind (scanFrames_after_seal hclosed frame rest last)
      · rintro ⟨hempty | hopened, -⟩
        · exact absurd hempty hnone
        · exact absurd hopened hclosed

namespace PlainWire

/-- A checkpoint that carries one attempt handed over and not settled. -/
def unknownOutcome : Continuation :=
  ⟨2, ⟨2, spell 1 9⟩, [], [.new (subject 1 1) .dispatchPrepared]⟩

theorem sized_unknownOutcome : (carry unknownOutcome).Sized := by
  decide +kernel

theorem admits_carrying {event : EffectEvent}
    (h : event = .outcomeObserved (subject 1 1) .applied ∨
      event = .intentAdmitted (subject 1 2)) :
    Admits plain (carriedHandle unknownOutcome) event (eventToBytes event) := by
  rcases h with rfl | rfl
  all_goals
    refine ⟨⟨?_, ?_, rfl, ?_, ?_, ?_⟩, ?_, ?_⟩
    all_goals decide +kernel

theorem rebuildsFence_newAttempt :
    RebuildsFence plain
      ((carriedHandle unknownOutcome).appended plain (.intentAdmitted (subject 1 2))
        (eventToBytes (.intentAdmitted (subject 1 2))))
      [.intentAdmitted (subject 1 2)] := by
  have happend := appendEach_single (admits_carrying (Or.inr rfl))
  apply (rebuildsFence_iff lawful_plain
    (open_carried sized_unknownOutcome) rfl happend).mpr
  refine ⟨Or.inr rfl, ?_⟩
  intro event hmem rung hrung
  rw [List.mem_singleton.mp hmem] at hrung
  have hnone : unknownOutcome.heldRung (subject 1 2) = none := by decide +kernel
  cases hnone.symm.trans hrung

/-- The outcome of a carried attempt, committed in the successor: the reopened successor
accepts it a second time. -/
theorem outcome_accepted_again :
    ∃ journal after acks final,
      openImpl plain (carriedDisk unknownOutcome) (successorPath base) .plain =
          (.ok journal, after) ∧
        journal.checkpoint = some unknownOutcome ∧
        (Handle.mk after journal).appendEach plain [.outcomeObserved (subject 1 1) .applied] =
          (.ok acks, final) ∧
        ¬ RebuildsFence plain final [.outcomeObserved (subject 1 1) .applied] := by
  have hadmits := admits_carrying (Or.inl rfl)
  refine ⟨_, _, _, _, open_carried sized_unknownOutcome, rfl, appendEach_single hadmits, ?_⟩
  intro h
  obtain ⟨reopened, after, hopen, -, -, hrefuses⟩ := h .plain
  have hmirrors : Mirrors plain (carriedHandle unknownOutcome) .plain false [carry unknownOutcome]
      (carriedState unknownOutcome) :=
    (openable_carried sized_unknownOutcome).mirrors (List.append_nil _).symm .plain false
  cases ((hmirrors.appended lawful_plain rfl hadmits).reopen rfl .plain).symm.trans hopen
  apply hrefuses _ (List.mem_singleton_self _) (by decide) (by decide) _ rfl rfl _ _ _
    (compareAndAppend_ok.mpr ⟨rfl, eventToBytes (.outcomeObserved (subject 1 1) .applied), ?_, rfl,
      rfl⟩)
  refine ⟨⟨?_, ?_, rfl, ?_, ?_, ?_⟩, ?_, ?_⟩
  all_goals decide +kernel

end PlainWire

end LogicalWorks.Journal
