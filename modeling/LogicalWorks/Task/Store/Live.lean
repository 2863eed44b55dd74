import LogicalWorks.Task.Store.PlainWire

/-! A run store on a device without faults: at every moment between two batches the file is
the header and the frames of the records answered as recorded, and the index is their
fold. -/
namespace LogicalWorks.Task.Store

open Journal Owner.Batch

variable {wire : Wire}

def recordedOf (answers : List (Staged × Except (SubmitError IoError) Appended)) : List Stored :=
  answers.filterMap fun answered =>
    if answered.2 = .ok .recorded then some answered.1.record else none

theorem recordedOf_append (left right : List (Staged × Except (SubmitError IoError) Appended)) :
    recordedOf (left ++ right) = recordedOf left ++ recordedOf right :=
  List.filterMap_append

def indexFor (wire : Wire) (frames : List (Framed Stored)) : Index :=
  indexOf ((format wire).replayOf (foldStored wire) noRecords frames)

/-- Where a record's step stands among the staged records. -/
def Stored.place (stored : Stored) : RunId × String := (stored.run, hexOf stored.key)

namespace RunStore

def Unfaulted : Action → Prop
  | .submit _ => True
  | .batch served flushed => flushed = true ∧ ∀ request ∈ served, request.fault = .none

structure Live (wire : Wire) (frames : List (Framed Stored)) (store : RunStore) : Prop where
  file : store.file.file =
    ⟨(format wire).fileOf frames, ((format wire).fileOf frames).length⟩
  chained : (format wire).Chained (format wire).genesis frames
  index : store.state = indexFor wire frames
  recorded : recordedOf store.answers = frames.map Framed.record

end RunStore

/-- What holds of a batch while it is staged on a live store: `news` were written behind the
frames, and each of them owes its fold. -/
structure StageLive (wire : Wire) (frames : List (Framed Stored)) (index : Index)
    (done : List (Staged × Handle.Served Fault))
    (staging : Staging Disk Index Appended IoError) (news : List (Framed Stored)) : Prop where
  file : staging.file.file = ⟨(format wire).fileOf (frames ++ news),
    ((format wire).fileOf (frames ++ news)).length⟩
  chained : (format wire).Chained (format wire).genesis (frames ++ news)
  runs : staging.state.runs = index.runs
  pending : staging.state.pending = index.pending
  tail : staging.state.tail = lastHead (format wire).genesis (frames ++ news)
  committed : staging.state.committed = ((format wire).fileOf (frames ++ news)).length
  staged : ∀ row ∈ staging.state.staged.rows, row.1 ∈ news.map fun read => read.record.place
  count : done.length = staging.members.length
  folds : ∀ start, staging.members.foldl (Member.folded none) start =
    news.foldl (fun index read => settle wire read.record index) start
  recorded : recordedOf ((done.map Prod.fst).zip
    ((staging.members.map (Member.answered none)).map Handle.published)) =
      news.map Framed.record

theorem StageLive.answer {frames news : List (Framed Stored)} {index : Index}
    {done : List (Staged × Handle.Served Fault)} {staging : Staging Disk Index Appended IoError}
    {request : Staged × Handle.Served Fault} {answer : Except IoError Appended} {bytes : Nat}
    (live : StageLive wire frames index done staging news)
    (hanswer : answer ≠ .ok .recorded) :
    StageLive wire frames index (done ++ [request])
      ⟨staging.file, staging.state,
        staging.members ++ [⟨.settled answer, request.2.abandoned⟩], bytes⟩ news := by
  have hpublished : Handle.published answer ≠ .ok .recorded :=
    fun h => hanswer (Handle.published_eq_ok.mp h)
  refine ⟨live.file, live.chained, live.runs, live.pending, live.tail, live.committed,
    live.staged, by simp [live.count], ?_, ?_⟩
  · intro start
    rw [List.foldl_append, live.folds]
    rfl
  · simp only [List.map_append]
    rw [List.zip_append (by simp [live.count]), recordedOf_append, live.recorded]
    simp [recordedOf, Member.answered, hpublished]

theorem StageLive.write {frames news : List (Framed Stored)} {index : Index}
    {done : List (Staged × Handle.Served Fault)} {staging : Staging Disk Index Appended IoError}
    {request : Staged × Handle.Served Fault} {write : Write} {length bytes : Nat}
    (lawful : wire.Lawful) (live : StageLive wire frames index done staging news)
    (hwrite : prepareWrite wire staging.file.file.len staging.state request.1.record = .ok write) :
    ∃ read, StageLive wire frames index (done ++ [request])
      ⟨{ staging.file with file := staging.file.file.writeAll write.framed },
        staging.state.stage request.1 write,
        staging.members ++ [⟨.unsynced .recorded length (settle wire request.1.record),
          request.2.abandoned⟩], bytes⟩ (news ++ [read]) := by
  obtain ⟨read, hrecord, hframed, hhead, hchain⟩ := prepareWrite_framed lawful hwrite
  obtain ⟨-, hnext, -, -⟩ := prepareWrite_ok hwrite
  have hfile := @Format.fileOf_snoc Stored (format wire) (frames ++ news) read
  refine ⟨read, ⟨?_, ?_, live.runs, live.pending, ?_, ?_, ?_, by simp [live.count], ?_, ?_⟩⟩
  · rw [← List.append_assoc, hfile, hframed, List.length_append]
    simp only []
    rw [live.file, PositionedFile.writeAll_at_end rfl]
  · rw [← List.append_assoc, Format.chained_append]
    refine ⟨live.chained, ?_⟩
    rw [← live.tail]
    exact hchain
  · rw [← List.append_assoc]
    simp [Index.stage, hhead, lastHead]
  · rw [← List.append_assoc, hfile, List.length_append, ← live.committed, ← hframed]
    exact hnext
  · intro row hrow
    rw [List.map_append, List.mem_append]
    rcases Table.mem_rows_insert hrow with rfl | hrow
    · right
      simp [Stored.place, hrecord, request.1.record_key]
    · exact .inl (live.staged row hrow)
  · intro start
    rw [List.foldl_append, List.foldl_append, live.folds, List.foldl_cons, List.foldl_cons, hrecord]
    rfl
  · simp only [List.map_append]
    rw [List.zip_append (by simp [live.count]), recordedOf_append, live.recorded]
    simp [recordedOf, Member.answered, Handle.published, hrecord]

/-- One ordered step of an unfaulted batch either writes one more record or none. -/
theorem StageLive.take (lawful : wire.Lawful) {frames news : List (Framed Stored)}
    {index : Index} {done : List (Staged × Handle.Served Fault)}
    {staging : Staging Disk Index Appended IoError} {request : Staged × Handle.Served Fault}
    (hfault : request.2.fault = .none)
    (live : StageLive wire frames index done staging news) :
    ∃ more, StageLive wire frames index (done ++ [request])
      (staging.take (Handle.ordered (appendOnOwner wire) request)) (news ++ more) := by
  have hstep := appendStep wire request.1 request.2.fault staging.file staging.state
  generalize hjob : appendOnOwner wire request.1 request.2.fault staging.file staging.state =
    result at hstep
  cases hstep with
  | refused cause =>
    rw [Staging.take_error hjob]
    refine ⟨[], ?_⟩
    rw [List.append_nil]
    exact live.answer (by simp)
  | owned answer howned _ =>
    rw [Staging.take_ok hjob]
    refine ⟨[], ?_⟩
    rw [List.append_nil]
    exact live.answer (by simpa using ownedAnswer_ne_recorded howned)
  | repeated answer _ hstaged _ =>
    rw [Staging.take_ok hjob]
    refine ⟨[], ?_⟩
    rw [List.append_nil]
    exact live.answer (by simpa using stagedAnswer_ne_recorded hstaged)
  | torn write moved cause _ _ _ htorn =>
    rw [hfault] at htorn
    cases htorn
  | written write _ _ hwrite _ =>
    rw [Staging.take_ok hjob]
    obtain ⟨read, hlive⟩ := live.write lawful hwrite
    exact ⟨[read], hlive⟩

theorem settle_foldl (news : List (Framed Stored)) (index : Index) :
    news.foldl (fun index read => settle wire read.record index) index =
      { runs := (news.foldl (foldStored wire) ⟨index.runs, index.pending⟩).runs
        committed := index.committed
        tail := index.tail
        pending := (news.foldl (foldStored wire) ⟨index.runs, index.pending⟩).pending
        staged := (news.map fun read => read.record.place).foldl Table.remove index.staged } := by
  induction news generalizing index with
  | nil => rfl
  | cons read rest ih =>
    rw [List.foldl_cons, ih]
    rfl

theorem StageLive.close {frames news : List (Framed Stored)}
    {done : List (Staged × Handle.Served Fault)} {staging : Staging Disk Index Appended IoError}
    (live : StageLive wire frames (indexFor wire frames) done staging news) :
    staging.members.foldl (Member.folded none) staging.state = indexFor wire (frames ++ news) := by
  have hempty := Table.foldl_remove_eq_empty _ live.staged
  rw [live.folds, settle_foldl, hempty, live.runs, live.pending, live.tail, live.committed]
  simp only [indexFor, indexOf, Format.replayOf, List.foldl_append, Format.length_fileOf]
  congr 1
  exact List.foldl_append

namespace RunStore

theorem Live.committed {frames : List (Framed Stored)} {store : RunStore}
    (live : Live wire frames store) :
    store.state.committed = ((format wire).fileOf frames).length := by
  rw [live.index, Format.length_fileOf]
  rfl

theorem Live.submit {frames : List (Framed Stored)} {store : RunStore}
    (live : Live wire frames store) (request : Staged) :
    Live wire frames (store.act wire (.submit request)) := by
  have hrefused : ∀ cause, recordedOf (store.answers ++ [(request, .error cause)]) =
      frames.map Framed.record := by
    intro cause
    rw [recordedOf_append, live.recorded]
    simp [recordedOf]
  unfold act Handle.submit
  simp only []
  split
  · exact ⟨live.file, live.chained, live.index, hrefused _⟩
  · split
    · exact ⟨live.file, live.chained, live.index, live.recorded⟩
    · split
      · exact ⟨live.file, live.chained, live.index, live.recorded⟩
      · exact ⟨live.file, live.chained, live.index, hrefused _⟩

theorem Live.stage {frames : List (Framed Stored)} {store : RunStore}
    (live : Live wire frames store) :
    StageLive wire frames store.state [] ⟨store.file, store.state, [], 0⟩ [] := by
  refine ⟨?_, ?_, rfl, rfl, ?_, ?_, ?_, rfl, ?_, rfl⟩
  · rw [List.append_nil]
    exact live.file
  · rw [List.append_nil]
    exact live.chained
  · rw [List.append_nil, live.index]
    rfl
  · rw [List.append_nil]
    exact live.committed
  · rw [live.index]
    intro row hrow
    cases hrow
  · intro start
    rfl

theorem Live.batch (lawful : wire.Lawful) {frames : List (Framed Stored)} {store : RunStore}
    {served : List (Handle.Served Fault)} {flushed : Bool} (live : Live wire frames store)
    (hunfaulted : Unfaulted (.batch served flushed)) :
    ∃ news, Live wire (frames ++ news) (store.act wire (.batch served flushed)) := by
  obtain ⟨hflushed, hnone⟩ := hunfaulted
  obtain ⟨taken, htaken, outcome, hends, hbatch⟩ := Handle.batch_ends (appendOnOwner wire)
    Disk.syncAll flushRefusal store served flushed
  have hstage : ∃ news, StageLive wire frames store.state taken
      ((taken.map (Handle.ordered (appendOnOwner wire))).foldl Staging.take
        ⟨store.file, store.state, [], 0⟩) news := by
    refine Staging.stage_invariant (I := fun done staging =>
      ∃ news, StageLive wire frames store.state done staging news) taken ?_ ?_
    · exact ⟨[], live.stage⟩
    · rintro done request staging hrequest - ⟨news, hlive⟩
      have hserved := (List.of_mem_zip (htaken.subset hrequest)).2
      obtain ⟨more, hnext⟩ := hlive.take lawful (hnone request.2 hserved)
      exact ⟨news ++ more, hnext⟩
  obtain ⟨news, hstage⟩ := hstage
  change ∃ news, Live wire (frames ++ news)
    (store.batch (appendOnOwner wire) Disk.syncAll flushRefusal served flushed)
  rw [hbatch]
  generalize (taken.map (Handle.ordered (appendOnOwner wire))).foldl Staging.take
    ⟨store.file, store.state, [], 0⟩ = staging at hends hstage
  rw [live.index] at hstage
  have hclosed : ∀ file : Disk, file.file = staging.file.file → outcome = staging.close none file →
      ∀ next : RunStore, next.file = outcome.file → next.state = outcome.state →
      next.answers = store.answers ++
        (taken.map Prod.fst).zip (outcome.answers.map Handle.published) →
      Live wire (frames ++ news) next := by
    intro file hfile houtcome next hnext hstate hanswers
    rw [houtcome] at hnext hstate hanswers
    refine ⟨?_, hstage.chained, ?_, ?_⟩
    · rw [hnext]
      exact hfile.trans hstage.file
    · rw [hstate]
      exact hstage.close
    · rw [hanswers, recordedOf_append, live.recorded, List.map_append]
      congr 1
      exact hstage.recorded
  refine ⟨news, ?_⟩
  cases hends with
  | synced _ _ => exact hclosed staging.file.syncAll rfl rfl _ rfl rfl rfl
  | failed hfailed _ =>
    rw [hflushed] at hfailed
    cases hfailed
  | settled _ => exact hclosed staging.file rfl rfl _ rfl rfl rfl

theorem live_created (wire : Wire) : Live wire [] (created wire) := by
  refine ⟨?_, trivial, rfl, rfl⟩
  simp [created, Handle.spawn, Format.fileOf, framesBytes, format]

theorem live_of_run (lawful : wire.Lawful) {final : RunStore}
    {trace : List (RunStore × Action)} (run : Run (Step wire) (created wire) trace final)
    (hunfaulted : ∀ taken ∈ trace, Unfaulted taken.2) : ∃ frames, Live wire frames final := by
  refine @Run.invariant _ _ _ _ _ _ (fun store => ∃ frames, Live wire frames store)
    (fun _ action => Unfaulted action) run ?_ ?_ hunfaulted
  · exact ⟨[], live_created wire⟩
  · rintro store action next ⟨frames, hlive⟩ hallowed hstep
    rw [← hstep]
    cases action with
    | submit request => exact ⟨frames, hlive.submit request⟩
    | batch served flushed =>
      obtain ⟨news, hnext⟩ := hlive.batch lawful hallowed
      exact ⟨frames ++ news, hnext⟩

theorem Live.replay_ok (lawful : wire.Lawful) {frames : List (Framed Stored)} {store : RunStore}
    (live : Live wire frames store) (hfew : frames.length ≤ maxRecordsPerRun) :
    ∃ file, replay wire ⟨store.file.file.bytes, 0⟩ = .ok (store.state, file) := by
  unfold replay
  rw [Format.replayLog_fileOf (format_lawful lawful) live.chained hfew (by rw [live.file]),
    live.index]
  exact ⟨_, rfl⟩

theorem Live.replay_limit (lawful : wire.Lawful) {frames : List (Framed Stored)}
    {store : RunStore} (live : Live wire frames store)
    (hmany : maxRecordsPerRun < frames.length) :
    replay wire ⟨store.file.file.bytes, 0⟩ =
      .error (.limit .records (maxRecordsPerRun + 1) maxRecordsPerRun) := by
  have hbytes : (⟨store.file.file.bytes, 0⟩ : PositionedFile).bytes =
      (format wire).fileOf frames ++ [] := by rw [live.file, List.append_nil]
  unfold replay
  rw [Format.replayLog_limit (format_lawful lawful) live.chained hmany hbytes]
  rfl

theorem Live.append (lawful : wire.Lawful) {frames : List (Framed Stored)} {store : RunStore}
    {request : Staged} {write : Write} (live : Live wire frames store) (hidle : store.Idle)
    (howned : ownedAnswer store.state request.record (hexOf request.key.bytes) = .ok none)
    (hwrite : prepareWrite wire store.state.committed store.state request.record = .ok write) :
    ∃ more, Live wire (frames ++ more)
        ((store.act wire (.submit request)).act wire (.batch [⟨.none, false⟩] true)) ∧
      more.map Framed.record = [request.record] ∧
      Handle.Idle ((store.act wire (.submit request)).act wire (.batch [⟨.none, false⟩] true)) ∧
      ((store.act wire (.submit request)).act wire (.batch [⟨.none, false⟩] true)).state.committed =
        write.next := by
  have hlen : store.file.file.len = store.state.committed := by
    rw [PositionedFile.len, live.file, live.committed]
  have hstaged : stagedAnswer store.state request.record (hexOf request.key.bytes) = none := by
    rw [live.index]
    rfl
  have hjob : appendOnOwner wire request .none store.file store.state =
      (.ok (.unsynced .recorded write.framed.length (settle wire request.record)),
        { store.file with file := store.file.file.writeAll write.framed },
        store.state.stage request write) := by
    unfold appendOnOwner decideAndWrite
    simp only [howned, hstaged, hlen, hwrite]
  have hnext := Handle.submit_batch hidle (appendOnOwner wire) Disk.syncAll flushRefusal request
    (⟨.none, false⟩ : Handle.Served Fault) true (runBatch_unsynced hjob)
  have hunfaulted : Unfaulted (.batch [⟨.none, false⟩] true) := ⟨rfl, by simp⟩
  obtain ⟨more, hlive⟩ := (live.submit request).batch lawful hunfaulted
  change Live wire (frames ++ more) ((Handle.submit store request).batch (appendOnOwner wire)
    Disk.syncAll flushRefusal [⟨.none, false⟩] true) at hlive
  refine ⟨more, hlive, ?_, ?_, ?_⟩
  · have hrecorded := hlive.recorded
    rw [hnext] at hrecorded
    simp only [recordedOf_append, live.recorded, List.map_append] at hrecorded
    exact (List.append_cancel_left hrecorded).symm
  · change Handle.Idle ((Handle.submit store request).batch (appendOnOwner wire)
      Disk.syncAll flushRefusal [⟨.none, false⟩] true)
    rw [hnext]
    exact ⟨rfl, hidle.2.1, rfl⟩
  · change ((Handle.submit store request).batch (appendOnOwner wire)
      Disk.syncAll flushRefusal [⟨.none, false⟩] true).state.committed = write.next
    rw [hnext]
    rfl

/-- A store that recorded on a device without faults is replayed as its live index exactly
when it holds no more records, over all its runs, than one run may hold. -/
theorem replay_eq_live_iff (lawful : wire.Lawful) {final : RunStore}
    {trace : List (RunStore × Action)} (run : Run (Step wire) (created wire) trace final)
    (hunfaulted : ∀ taken ∈ trace, Unfaulted taken.2) :
    (∃ file, replay wire ⟨final.file.file.bytes, 0⟩ = .ok (final.state, file)) ↔
      (recordedOf final.answers).length ≤ maxRecordsPerRun := by
  obtain ⟨frames, hlive⟩ := live_of_run lawful run hunfaulted
  rw [hlive.recorded, List.length_map]
  refine ⟨?_, hlive.replay_ok lawful⟩
  rintro ⟨file, hreplay⟩
  by_contra hmany
  rw [hlive.replay_limit lawful (by omega)] at hreplay
  cases hreplay

end RunStore

namespace PlainWire

open RunStore StreamCodec

/-- The appends of a store that fills one run and goes on in the next. -/
def numbered (count : Nat) : Staged := request (count / maxRecordsPerRun) "a" count []

def numberedRun (count : Nat) : List Action :=
  (List.range count).flatMap fun number => [.submit (numbered number), .batch [served] true]

theorem numberedRun_succ (count : Nat) :
    (numberedRun (count + 1)).foldl (act plain) (created plain) =
      (((numberedRun count).foldl (act plain) (created plain)).act plain
        (.submit (numbered count))).act plain (.batch [served] true) := by
  simp [numberedRun, List.range_succ]

theorem unfaulted_numberedRun (count : Nat) : ∀ action ∈ numberedRun count, Unfaulted action := by
  intro action haction
  obtain ⟨number, -, hone⟩ := List.mem_flatMap.mp haction
  rcases List.mem_cons.mp hone with rfl | hone
  · trivial
  · rw [List.mem_singleton.mp hone]
    exact ⟨rfl, by simp [served]⟩

theorem replay_eq_live_one :
    ∃ file, replay plain ⟨((numberedRun 1).foldl (act plain) (created plain)).file.file.bytes, 0⟩ =
      .ok (((numberedRun 1).foldl (act plain) (created plain)).state, file) := by
  have hrun : Run (Step plain) (created plain) (traceOf (act plain) (created plain) (numberedRun 1))
      ((numberedRun 1).foldl (act plain) (created plain)) := Run.ofActions _ _ _
  refine (replay_eq_live_iff lawful hrun ?_).mpr (by decide +kernel)
  intro taken htaken
  exact unfaulted_numberedRun 1 taken.2 (mem_traceOf htaken)

theorem spell_inj {left right : Nat} (hleft : left < 256 ^ 8) (hright : right < 256 ^ 8)
    (h : (Journal.PlainWire.spell 0 left).bytes = (Journal.PlainWire.spell 0 right).bytes) :
    left = right := by
  have hbytes : ∀ number, ∃ rest, (Journal.PlainWire.spell 0 number).bytes =
      Bytes.littleEndian 8 number ++ rest := by
    intro number
    exact ⟨List.replicate 23 7 ++ [0], rfl⟩
  obtain ⟨_, hone⟩ := hbytes left
  obtain ⟨_, htwo⟩ := hbytes right
  rw [hone, htwo] at h
  have hsame := (List.append_inj h (by simp)).1
  rw [← Bytes.ofLittleEndian_littleEndian hleft, hsame, Bytes.ofLittleEndian_littleEndian hright]

theorem length_numbered {count : Nat} (h : count ≤ maxRecordsPerRun) :
    (stored.encode (numbered count).record).length = 54 := by
  have hkey := (Journal.PlainWire.spell 0 count).length_bytes
  have hencode : stored.encode (numbered count).record =
      number.encode (count / maxRecordsPerRun) ++
        (number.encode (Journal.PlainWire.spell 0 count).bytes.length ++
          (Journal.PlainWire.spell 0 count).bytes ++
          (text.encode "a" ++ (text.encode "" ++
            (definition.encode ⟨"", 0, [], 0, ""⟩ ++ bytes.encode [])))) := rfl
  have hrun : (number.encode (count / maxRecordsPerRun)).length = 3 := by
    have hbound : count / maxRecordsPerRun < 2 := by
      rw [Nat.div_lt_iff_lt_mul (by decide)]
      unfold maxRecordsPerRun at h ⊢
      omega
    generalize count / maxRecordsPerRun = run at hbound
    match run, hbound with
    | 0, _ => rfl
    | 1, _ => rfl
  have hrest : (text.encode "a" ++ (text.encode "" ++
      (definition.encode ⟨"", 0, [], 0, ""⟩ ++ bytes.encode []))).length = 16 := by
    decide +kernel
  have hlength : (number.encode headBytes).length = 3 := by decide +kernel
  rw [hencode, List.length_append, List.length_append, List.length_append, hkey, hrun, hrest,
    hlength]
  rfl

theorem numbered_fresh {count : Nat} {frames : List (Framed Stored)}
    (hcount : count ≤ maxRecordsPerRun)
    (hrecords : frames.map Framed.record =
      (List.range count).map (fun number => (numbered number).record)) :
    ownedAnswer (indexFor plain frames) (numbered count).record
      (hexOf (numbered count).key.bytes) = .ok none := by
  have hearlier : ∀ read ∈ frames, ∃ number < count, read.record = (numbered number).record := by
    intro read hread
    have hmem := @List.mem_map_of_mem _ _ _ _ Framed.record hread
    rw [hrecords] at hmem
    obtain ⟨number, hnumber, hsame⟩ := List.mem_map.mp hmem
    exact ⟨number, List.mem_range.mp hnumber, hsame.symm⟩
  have hlength : frames.length = count := by
    have := congrArg List.length hrecords
    simpa using this
  have hspan : maxRecordsPerRun < 256 ^ 8 := by decide
  refine ownedAnswer_of_fresh ?_ ?_ ?_
  · rw [Option.eq_none_iff_forall_not_mem]
    intro held hheld
    rcases stepOf_foldl frames hheld with hnone | ⟨read, hread, -, hkey, -⟩
    · cases hnone
    · obtain ⟨number, hless, hsame⟩ := hearlier read hread
      rw [hsame] at hkey
      have hnumber := spell_inj (by omega) (by omega) (hexOf_inj hkey)
      omega
  · intro tenant htenant
    rcases tenantOf_foldl frames htenant with hnone | ⟨read, hread, -, howner⟩
    · cases hnone
    · obtain ⟨number, -, hsame⟩ := hearlier read hread
      rw [← howner, hsame]
      rfl
  · intro held hheld
    by_cases hlast : count < maxRecordsPerRun
    · have hsize := @size_steps_foldl_le plain _ frames noRecords 0 (fun held hnone => by cases hnone)
        held hheld
      omega
    · -- the record behind a full run opens the next one
      have htenant : tenantOf (indexFor plain frames).runs (numbered count).record.run =
          some held.tenant := by
        unfold tenantOf
        rw [hheld]
        rfl
      rcases tenantOf_foldl frames htenant with hnone | ⟨read, hread, hrun, -⟩
      · cases hnone
      · obtain ⟨number, hless, hsame⟩ := hearlier read hread
        rw [hsame] at hrun
        change number / maxRecordsPerRun = count / maxRecordsPerRun at hrun
        have hcount : count = maxRecordsPerRun := by omega
        rw [hcount, Nat.div_self (by decide), Nat.div_eq_of_lt (by omega)] at hrun
        cases hrun

theorem numberedRun_recorded (count : Nat) : count ≤ maxRecordsPerRun + 1 →
    ∃ frames, Live plain frames ((numberedRun count).foldl (act plain) (created plain)) ∧
      Handle.Idle ((numberedRun count).foldl (act plain) (created plain)) ∧
      frames.map Framed.record = (List.range count).map (fun number => (numbered number).record) ∧
      ((numberedRun count).foldl (act plain) (created plain)).state.committed = 16 + 90 * count := by
  induction count with
  | zero =>
    intro _
    exact ⟨[], live_created plain, ⟨rfl, rfl, rfl⟩, rfl, by decide +kernel⟩
  | succ count ih =>
    intro hcount
    obtain ⟨frames, hlive, hidle, hrecords, hcommitted⟩ := ih (by omega)
    rw [numberedRun_succ]
    generalize (numberedRun count).foldl (act plain) (created plain) = store at *
    have hfresh := numbered_fresh (by omega) hrecords
    rw [← hlive.index] at hfresh
    have hlength := length_numbered (by omega : count ≤ maxRecordsPerRun)
    have hfits : (⟨stored.encode (numbered count).record,
        (numbered count).record.headFrom plain store.state.tail⟩ : Frame).Fits maxRecordBytes := by
      unfold Frame.Fits
      rw [hlength]
      decide
    have hroom : store.state.committed +
        framedLen (stored.encode (numbered count).record).length ≤ maxStoreBytes := by
      rw [hlength, hcommitted]
      unfold framedLen headBytes lengthBytes maxStoreBytes
      unfold maxRecordsPerRun at hcount
      omega
    have hwrite := prepareWrite_of_fits rfl hfits hroom
    obtain ⟨more, hnext, hmore, hstill, hends⟩ := hlive.append lawful hidle hfresh hwrite
    refine ⟨frames ++ more, hnext, hstill, ?_, ?_⟩
    · rw [List.map_append, hmore, hrecords, List.range_succ, List.map_append]
      rfl
    · rw [served, hends]
      simp only [hlength, hcommitted, framedLen, headBytes, lengthBytes]
      omega

/-- The record behind a full run is acknowledged, and the file is not opened again. -/
theorem full_run_not_replayed :
    (∀ action ∈ numberedRun (maxRecordsPerRun + 1), Unfaulted action) ∧
      recordedOf ((numberedRun (maxRecordsPerRun + 1)).foldl (act plain) (created plain)).answers =
        (List.range (maxRecordsPerRun + 1)).map (fun number => (numbered number).record) ∧
      replay plain ⟨((numberedRun (maxRecordsPerRun + 1)).foldl (act plain)
          (created plain)).file.file.bytes, 0⟩ =
        .error (.limit .records (maxRecordsPerRun + 1) maxRecordsPerRun) := by
  obtain ⟨frames, hlive, -, hrecords, -⟩ := numberedRun_recorded (maxRecordsPerRun + 1)
    (Nat.le_refl _)
  have hmany : maxRecordsPerRun < frames.length := by
    have hlength := congrArg List.length hrecords
    rw [List.length_map, List.length_map, List.length_range] at hlength
    omega
  exact ⟨unfaulted_numberedRun _, hlive.recorded.trans hrecords,
    hlive.replay_limit lawful hmany⟩

end PlainWire

end LogicalWorks.Task.Store
