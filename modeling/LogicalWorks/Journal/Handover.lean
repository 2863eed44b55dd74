import LogicalWorks.Journal.Appends

/-! A continuation, said once: the frame a seal writes, and the journal its successor opens
as. -/
namespace LogicalWorks.Journal

variable {wire : Wire} {handle : Handle} {checkpoint : Continuation} {payload framed : Bytes}

structure Seals (wire : Wire) (handle : Handle) (checkpoint : Continuation) (payload : Bytes) :
    Prop where
  fenced : handle.fence = .ok ()
  carries : checkpoint = ⟨handle.journal.generation + 1, handle.journal.position,
    handle.journal.carried.1, handle.journal.carried.2⟩
  settled_bound : checkpoint.settled.length ≤ maxCheckpointSettled
  unresolved_bound : checkpoint.unresolved.length ≤ maxCheckpointUnresolved
  archived : wire.toPayload checkpoint = .ok payload
  advances : handle.journal.position.sequence.toNat + 1 < 2 ^ 64
  sized : (wire.frameAt handle.journal.position payload).Sized

theorem framePayload_ok {start position : JournalPosition} :
    handle.framePayload wire payload start = .ok (position, framed) ↔
      handle.fence = .ok () ∧ start.sequence.toNat + 1 < 2 ^ 64 ∧
        (wire.frameAt start payload).Sized ∧ position = wire.after start payload ∧
        framed = (wire.frameAt start payload).bytes := by
  unfold Handle.framePayload Wire.after saturatingSucc checkedSucc
  by_cases hroom : start.sequence.toNat + 1 < 2 ^ 64
  · simp only [hroom, if_true]
    constructor
    · intro h
      simp only [bind_eq_ok, pure_eq_ok, Prod.exists, Prod.mk.injEq] at h
      obtain ⟨_, hfence, framed', head, hframe, hposition, rfl⟩ := h
      obtain ⟨archived, harchive, hhead, hsized, hbytes⟩ := frameRecord_ok hframe
      cases harchive
      subst hhead
      exact ⟨hfence, trivial, hsized, hposition.symm, hbytes⟩
    · rintro ⟨hfence, -, hsized, rfl, rfl⟩
      have hwritable := writableLength_of_sized hsized
      unfold Wire.frameAt at hwritable
      simp only [hfence, ok_bind, frameRecord, hwritable]
      rfl
  · simp only [hroom, if_false]
    constructor
    · intro h
      obtain ⟨_, -, h⟩ := bind_eq_ok.mp h
      cases h
    · rintro ⟨-, hbound, -⟩
      exact hbound.elim

theorem Continuation.new_eq_ok {generation : Nat} {predecessor : JournalPosition}
    {settled : List SettledAttempt} {unresolved : List UnresolvedAttempt} :
    Continuation.new generation predecessor settled unresolved = .ok checkpoint ↔
      checkpoint = ⟨generation, predecessor, settled, unresolved⟩ ∧
        settled.length ≤ maxCheckpointSettled ∧
        unresolved.length ≤ maxCheckpointUnresolved := by
  unfold Continuation.new
  constructor
  · intro h
    split at h
    · cases h
    · split at h
      · cases h
      · cases h
        exact ⟨rfl, by omega, by omega⟩
  · rintro ⟨rfl, hsettled, hunresolved⟩
    rw [if_neg (by omega), if_neg (by omega)]

theorem sealFrame_ok :
    handle.sealFrame wire = .ok (checkpoint, framed) ↔ ∃ payload,
      Seals wire handle checkpoint payload ∧
        framed = (wire.frameAt handle.journal.position payload).bytes := by
  unfold Handle.sealFrame
  simp only [bind_eq_ok, pure_eq_ok, Prod.exists, Prod.mk.injEq, framePayload_ok,
    Continuation.new_eq_ok]
  constructor
  · rintro ⟨_, ⟨rfl, hsettled, hunresolved⟩, payload, harchived, _, _,
      ⟨hfence, hadvances, hsized, -, rfl⟩, rfl, rfl⟩
    exact ⟨payload, ⟨hfence, rfl, hsettled, hunresolved, harchived, hadvances, hsized⟩, rfl⟩
  · rintro ⟨payload, h, rfl⟩
    have hsettled := h.settled_bound
    have hunresolved := h.unresolved_bound
    rw [h.carries] at hsettled hunresolved
    exact ⟨checkpoint, ⟨h.carries, hsettled, hunresolved⟩, payload, h.archived, _, _,
      ⟨h.fenced, h.advances, h.sized, rfl, rfl⟩, rfl, rfl⟩

def sealedState (wire : Wire) (position : JournalPosition) (checkpoint : Continuation)
    (payload : Bytes) : ScanState :=
  (ScanState.start wire).afterCarried (wire.frameAt position payload)
    (wire.after position payload) checkpoint

theorem scanFrames_sealed (lawful : wire.Lawful)
    (harchived : wire.toPayload checkpoint = .ok payload) :
    scanFrames wire maxJournalEvents (.start wire)
        [wire.frameAt checkpoint.predecessor payload] =
      .ok (sealedState wire checkpoint.predecessor checkpoint payload) := by
  rw [scanFrames_single]
  have hroom : 0 < maxJournalEvents := by decide
  exact ⟨hroom, .carried checkpoint (Wire.fromPayload_toPayload lawful harchived) rfl rfl rfl⟩

theorem Seals.predecessor_eq (h : Seals wire handle checkpoint payload) :
    checkpoint.predecessor = handle.journal.position := by
  rw [h.carries]

theorem openable_sealed (lawful : wire.Lawful) (hseals : Seals wire handle checkpoint payload)
    {disk : Disk} {path : JournalPath} (hnamed : ambiguousBase path = none)
    (hfree : disk.locked path = false)
    (hfile : disk.file path = framesBytes [wire.frameAt handle.journal.position payload]) :
    Openable wire disk path [wire.frameAt handle.journal.position payload]
      (sealedState wire handle.journal.position checkpoint payload) := by
  have hscan := scanFrames_sealed lawful hseals.archived
  rw [hseals.predecessor_eq] at hscan
  refine ⟨hnamed, hfree, ?_, List.forall_mem_singleton.mpr hseals.sized, hscan, rfl⟩
  rw [hfile]
  exact length_framesBytes_single hseals.sized

def Handle.sealedDisk (wire : Wire) (handle : Handle) (payload : Bytes) : Disk :=
  let frame := wire.frameAt handle.journal.position payload
  (handle.disk.write handle.journal.path (handle.file ++ frame.bytes)).write
    (successorPath handle.journal.path) frame.bytes

theorem file_sealedDisk (handle : Handle) (payload : Bytes) :
    (handle.sealedDisk wire payload).file (successorPath handle.journal.path) =
      framesBytes [wire.frameAt handle.journal.position payload] := by
  unfold Handle.sealedDisk
  rw [Disk.file_write_self, framesBytes_cons, framesBytes_nil, List.append_nil]

theorem write_sealedDisk (handle : Handle) (payload : Bytes) :
    (handle.sealedDisk wire payload).write (successorPath handle.journal.path)
        (framesBytes [wire.frameAt handle.journal.position payload]) =
      handle.sealedDisk wire payload := by
  unfold Handle.sealedDisk
  rw [framesBytes_cons, framesBytes_nil, List.append_nil, Disk.write_write]

theorem continueAsFile_some {opened : FileJournal} {next : Handle}
    (h : handle.continueAsFile wire = (.ok (some opened), next)) :
    ∃ checkpoint payload, Seals wire handle checkpoint payload ∧
      handle.journal.continuing = true ∧ handle.journal.pause = none ∧
      openImpl wire (handle.sealedDisk wire payload) (successorPath handle.journal.path)
        (.continuing handle.journal.continuation) = (.ok opened, next.disk) := by
  unfold Handle.continueAsFile at h
  simp only at h
  split at h
  · cases h
  · rename_i hcontinuing
    split at h
    · cases h
    · split at h
      · cases h
      · rename_i checkpoint framed hframe
        obtain ⟨payload, hseals, rfl⟩ := sealFrame_ok.mp hframe
        unfold sealOnOwner at h
        simp only at h
        split at h
        · rename_i hoperation
          split at h
          · cases h
          · rename_i hopen
            cases h
            split at hoperation
            · cases hoperation
            · rename_i hnot
              split at hoperation
              · cases hoperation
              · rename_i hpause
                cases hoperation
                exact ⟨checkpoint, payload, hseals, by simpa using hcontinuing, hpause, hopen⟩
        · cases h

theorem continueAsFile_none {next : Handle}
    (h : handle.continueAsFile wire = (.ok none, next)) :
    handle.journal.continuing = false ∧ next = handle := by
  unfold Handle.continueAsFile at h
  simp only at h
  split at h
  · rename_i hcontinuing
    cases h
    exact ⟨hcontinuing, rfl⟩
  · split at h
    · cases h
    · split at h
      · cases h
      · split at h
        · split at h <;> cases h
        · cases h

theorem opened_of_continue (lawful : wire.Lawful) {opened : FileJournal} {disk : Disk}
    {kind : OpenKind} (hseals : Seals wire handle checkpoint payload)
    (hopen : openImpl wire (handle.sealedDisk wire payload) (successorPath handle.journal.path)
      kind = (.ok opened, disk)) :
    Openable wire (handle.sealedDisk wire payload) (successorPath handle.journal.path)
        [wire.frameAt handle.journal.position payload]
        (sealedState wire handle.journal.position checkpoint payload) ∧
      opened = .ofState wire (successorPath handle.journal.path) kind
        (sealedState wire handle.journal.position checkpoint payload) false ∧
      disk = (handle.sealedDisk wire payload).lock (successorPath handle.journal.path) := by
  obtain ⟨frames, state, left, repaired, hopenable, -, -, -⟩ := openImpl_ok hopen
  have hthis := openable_sealed lawful hseals hopenable.named hopenable.unlocked
    (file_sealedDisk handle payload)
  rw [openImpl_framesBytes hthis kind (file_sealedDisk handle payload)] at hopen
  cases hopen
  exact ⟨hthis, rfl, by rw [write_sealedDisk]⟩

/-- A seal that is prepared is carried through when nobody holds the successor. -/
theorem continueAsFile_of_seals (lawful : wire.Lawful)
    (hseals : Seals wire handle checkpoint payload) (hcontinuing : handle.journal.continuing = true)
    (hpause : handle.journal.pause = none)
    (hnamed : ambiguousBase (successorPath handle.journal.path) = none)
    (hfree : handle.disk.locked (successorPath handle.journal.path) = false) :
    ∃ closed, handle.continueAsFile wire =
        (.ok (some (.ofState wire (successorPath handle.journal.path)
          (.continuing handle.journal.continuation)
          (sealedState wire handle.journal.position checkpoint payload) false)), closed) ∧
      closed.disk = (handle.sealedDisk wire payload).lock (successorPath handle.journal.path) := by
  have hsealedBy := (fence_ok.mp hseals.fenced).1
  have hframe := sealFrame_ok.mpr ⟨payload, hseals, rfl⟩
  have hunlocked : (handle.sealedDisk wire payload).locked
      (successorPath handle.journal.path) = false := hfree
  have hopenable := openable_sealed lawful hseals hnamed hunlocked (file_sealedDisk handle payload)
  have hopen := openImpl_framesBytes hopenable
    (.continuing handle.journal.continuation) (file_sealedDisk handle payload)
  rw [write_sealedDisk] at hopen
  unfold Handle.sealedDisk Handle.file at hopen
  unfold Handle.continueAsFile sealOnOwner
  simp only [hcontinuing, hsealedBy, hframe, hpause, Bool.true_eq_false, if_false, reduceCtorEq]
  rw [hopen]
  exact ⟨_, rfl, rfl⟩

end LogicalWorks.Journal
