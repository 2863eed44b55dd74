import LogicalWorks.Task.Store.Durable
import LogicalWorks.Task.Store.Live

/-! One run, one tenant: what the file and the index keep apart, as long as no batch brings
the first records of one run from two tenants.  And one record a step, whatever a batch brings. -/
namespace LogicalWorks.Task.Store

open Journal Owner.Batch

variable {wire : Wire}

def OneTenant (records : List Stored) : Prop :=
  records.Pairwise fun first later => later.run = first.run → later.tenant = first.tenant

namespace RunStore

/-- No two tenants' first records of one run meet: the requests of a batch that the settled
index leaves open agree on the tenant of a run, and so does what an earlier batch wrote under
a run it never settled. -/
def SharesNoNewRun (wire : Wire) (store : RunStore) : Action → Prop
  | .submit _ => True
  | .batch served _ =>
    (∀ request ∈ store.arrived served, Unsettled store.state request →
      tenantOf store.state.runs request.1.record.run = none →
      ∀ stored : Stored, LiesOn wire stored store.file.file.bytes →
        stored.run = request.1.record.run → stored.tenant = request.1.record.tenant) ∧
    (store.arrived served).Pairwise fun first second =>
      Unsettled store.state first → Unsettled store.state second →
      second.1.record.run = first.1.record.run →
      second.1.record.tenant = first.1.record.tenant

end RunStore

theorem OneTenant.same {records : List Stored} (h : OneTenant records) {left right : Stored}
    (hleft : left ∈ records) (hright : right ∈ records) (hrun : left.run = right.run) :
    left.tenant = right.tenant := by
  induction records with
  | nil => cases hleft
  | cons first rest ih =>
    obtain ⟨hfirst, hrest⟩ := List.pairwise_cons.mp h
    rcases List.mem_cons.mp hleft with hl | hl
    · rcases List.mem_cons.mp hright with hr | hr
      · rw [hl, hr]
      · rw [hl] at hrun ⊢
        exact (hfirst right hr hrun.symm).symm
    · rcases List.mem_cons.mp hright with hr | hr
      · rw [hr] at hrun ⊢
        exact hfirst left hl hrun
      · exact ih hrest hl hr

theorem OneTenant.snoc {records : List Stored} {stored : Stored} (h : OneTenant records)
    (hstored : ∀ first ∈ records, stored.run = first.run → stored.tenant = first.tenant) :
    OneTenant (records ++ [stored]) := by
  refine List.pairwise_append.mpr ⟨h, List.pairwise_singleton _ _, ?_⟩
  intro first hfirst later hlater
  rw [List.mem_singleton.mp hlater]
  exact hstored first hfirst

/-- A file that holds the frames and is written on behind them, or holds less than a frame
more and is stopped by the length fence. -/
structure OnFile (wire : Wire) (frames : List (Framed Stored)) (file : PositionedFile)
    (index : Index) : Prop where
  chained : (format wire).Chained (format wire).genesis frames
  position : file.position = file.bytes.length
  stands : ∃ cut, file.bytes = (format wire).fileOf frames ++ cut ∧ Format.Cut maxRecordBytes cut ∧
    (cut = [] ∧ index.committed = file.bytes.length ∧
        index.tail = lastHead (format wire).genesis frames ∨
      file.bytes.length < index.committed)

theorem OnFile.write (lawful : wire.Lawful) {frames : List (Framed Stored)}
    {file : PositionedFile} {index : Index} {request : Staged} {write : Write} (moved : Nat)
    (h : OnFile wire frames file index)
    (hwrite : prepareWrite wire file.len index request.record = .ok write) :
    ∃ more, OnFile wire (frames ++ more) (file.writeAll (write.framed.take moved))
        (index.stage request write) ∧ (∀ read ∈ more, read.record = request.record) ∧
      more.length ≤ 1 ∧ (write.framed.length ≤ moved → more ≠ []) := by
  obtain ⟨read, hrecord, hframed, hhead, hchain⟩ := prepareWrite_framed lawful hwrite
  obtain ⟨-, hnext, -, hlen⟩ := prepareWrite_ok hwrite
  obtain ⟨cut, hbytes, hcut, hstands⟩ := h.stands
  rcases hstands with ⟨rfl, hcommitted, htail⟩ | hstopped
  · rw [List.append_nil] at hbytes
    rw [PositionedFile.writeAll_at_end h.position]
    by_cases hwhole : write.framed.length ≤ moved
    · rw [List.take_of_length_le hwhole]
      refine ⟨[read], ⟨?_, ?_, [], ?_, Format.cut_nil (by decide), .inl ⟨rfl, ?_, ?_⟩⟩, ?_, by simp, by simp⟩
      · rw [Format.chained_append]
        refine ⟨h.chained, ?_⟩
        rw [← htail]
        exact hchain
      · simp
      · rw [List.append_nil, Format.fileOf_snoc, ← hframed, hbytes]
      · simp [Index.stage, hnext, hcommitted]
      · simp [Index.stage, hhead, lastHead]
      · intro other hother
        rw [List.mem_singleton.mp hother, hrecord]
    · refine ⟨[], ⟨?_, ?_, write.framed.take moved, ?_, ?_, .inr ?_⟩, by simp, by simp, ?_⟩
      · rw [List.append_nil]
        exact h.chained
      · simp
      · rw [List.append_nil, hbytes]
      · refine ⟨read.frame, hchain.2.2.1, ?_, ?_⟩
        · rw [hframed]
          exact List.take_prefix _ _
        · rw [← hframed, List.length_take]
          omega
      · simp only [Index.stage, List.length_append, List.length_take]
        omega
      · intro hfull
        exact absurd hfull hwhole
  · rw [PositionedFile.len] at hlen
    omega

theorem OnFile.liesOn {frames : List (Framed Stored)} {file : PositionedFile} {index : Index}
    (h : OnFile wire frames file index) {read : Framed Stored} (hread : read ∈ frames) :
    LiesOn wire read.record file.bytes := by
  obtain ⟨cut, hbytes, -⟩ := h.stands
  obtain ⟨before, after, rfl⟩ := List.append_of_mem hread
  refine ⟨read.frame, storeHeader ++ framesBytes (before.map Framed.frame),
    framesBytes (after.map Framed.frame) ++ cut, h.chained.decode read hread, ?_⟩
  rw [hbytes]
  simp [Format.fileOf, framesBytes, format]

structure Known (wire : Wire) (frames : List (Framed Stored))
    (answers : List (Staged × Except (SubmitError IoError) Appended)) (index : Index) : Prop where
  tenants : ∀ run tenant, tenantOf index.runs run = some tenant →
    ∃ read ∈ frames, read.record.run = run ∧ read.record.tenant = tenant
  steps : ∀ run key held, stepOf index.runs run key = some held →
    ∃ request, (request, .ok .recorded) ∈ answers ∧ request.record.run = run ∧
      hexOf request.record.key = key ∧ request.record.value = held.bytes

/-- What holds of a batch while it is staged: `news` stand on the file behind the frames, each
for a request that the settled index left open, and all of a run name one tenant. -/
structure StageOwned (wire : Wire) (frames : List (Framed Stored)) (index : Index)
    (done : List (Staged × Handle.Served Fault))
    (staging : Staging Disk Index Appended IoError) (news : List (Framed Stored)) : Prop where
  onFile : OnFile wire (frames ++ news) staging.file.file staging.state
  runs : staging.state.runs = index.runs
  one : OneTenant ((frames ++ news).map Framed.record)
  asked : ∀ read ∈ news, ∃ first ∈ done, Unsettled index first ∧ read.record = first.1.record
  members : List.Forall₂ (fun request member =>
    (∃ answer, member.staged = .settled answer ∧ answer ≠ .ok .recorded) ∨
      (∃ bytes, member.staged = .unsynced .recorded bytes (settle wire request.1.record)) ∧
        ∃ read ∈ news, read.record = request.1.record) done staging.members

theorem StageOwned.joins {frames news : List (Framed Stored)} {index : Index}
    {done : List (Staged × Handle.Served Fault)} {staging : Staging Disk Index Appended IoError}
    {request : Staged × Handle.Served Fault} {answers} {start : Bytes}
    (kept : StageOwned wire frames index done staging news)
    (hknown : Known wire frames answers index)
    (hstart : ∀ read ∈ frames, LiesOn wire read.record start)
    (hopen : Unsettled index request)
    (hleft : tenantOf index.runs request.1.record.run = none → ∀ stored : Stored,
      LiesOn wire stored start → stored.run = request.1.record.run →
      stored.tenant = request.1.record.tenant)
    (hpairs : ∀ first ∈ done, Unsettled index first →
      request.1.record.run = first.1.record.run → request.1.record.tenant = first.1.record.tenant) :
    ∀ stored ∈ (frames ++ news).map Framed.record, request.1.record.run = stored.run →
      request.1.record.tenant = stored.tenant := by
  intro stored hstored hrun
  obtain ⟨read, hread, rfl⟩ := List.mem_map.mp hstored
  rcases List.mem_append.mp hread with hold | hnew
  · cases htenant : tenantOf index.runs request.1.record.run with
    | none => exact (hleft htenant read.record (hstart read hold) hrun.symm).symm
    | some owner =>
      have howner := (ownedAnswer_none hopen.1).2 owner htenant
      obtain ⟨first, hfirst, hsame, hnamed⟩ := hknown.tenants _ _ htenant
      rw [← howner, ← hnamed]
      refine kept.one.same ?_ hstored (hsame.trans hrun)
      exact List.mem_map_of_mem (List.mem_append_left _ hfirst)
  · obtain ⟨first, hfirst, hearlier, hsame⟩ := kept.asked read hnew
    rw [hsame] at hrun ⊢
    exact hpairs first hfirst hearlier hrun

section Stage

variable {frames news : List (Framed Stored)} {index : Index}
  {done : List (Staged × Handle.Served Fault)} {staging : Staging Disk Index Appended IoError}
  {request : Staged × Handle.Served Fault}

theorem StageOwned.answered (kept : StageOwned wire frames index done staging news)
    {answer : Except IoError Appended} (hanswer : answer ≠ .ok .recorded) (bytes : Nat) :
    StageOwned wire frames index (done ++ [request]) ⟨staging.file, staging.state,
      staging.members ++ [⟨.settled answer, request.2.abandoned⟩], bytes⟩ news := by
  refine ⟨kept.onFile, kept.runs, kept.one, ?_, ?_⟩
  · intro read hread
    obtain ⟨first, hfirst, hrest⟩ := kept.asked read hread
    exact ⟨first, List.mem_append_left _ hfirst, hrest⟩
  · exact List.rel_append kept.members (.cons (.inl ⟨answer, rfl, hanswer⟩) .nil)

theorem StageOwned.written (lawful : wire.Lawful)
    (kept : StageOwned wire frames index done staging news)
    (hjoins : ∀ stored ∈ (frames ++ news).map Framed.record,
      request.1.record.run = stored.run → request.1.record.tenant = stored.tenant)
    {write : Write} (moved : Nat) {stage : Stage Index Appended IoError} (bytes : Nat)
    (hopen : Unsettled index request)
    (hwrite : prepareWrite wire staging.file.file.len staging.state request.1.record = .ok write)
    (hstage : (∃ answer, stage = .settled answer ∧ answer ≠ .ok .recorded) ∨
      stage = .unsynced .recorded write.framed.length (settle wire request.1.record) ∧
        write.framed.length ≤ moved) :
    ∃ more, StageOwned wire frames index (done ++ [request])
      ⟨{ staging.file with file := staging.file.file.writeAll (write.framed.take moved) },
        staging.state.stage request.1 write,
        staging.members ++ [⟨stage, request.2.abandoned⟩], bytes⟩ (news ++ more) := by
  obtain ⟨more, honFile, hmore, hfew, hwhole⟩ := kept.onFile.write lawful moved hwrite
  refine ⟨more, ?_, kept.runs, ?_, ?_, ?_⟩
  · rw [← List.append_assoc]
    exact honFile
  · rw [← List.append_assoc]
    match more, hfew with
    | [], _ =>
      rw [List.append_nil]
      exact kept.one
    | [read], _ =>
      rw [List.map_append]
      refine kept.one.snoc ?_
      rw [hmore read (List.mem_singleton_self _)]
      exact hjoins
  · intro read hread
    rcases List.mem_append.mp hread with hold | hnew
    · obtain ⟨first, hfirst, hrest⟩ := kept.asked read hold
      exact ⟨first, List.mem_append_left _ hfirst, hrest⟩
    · exact ⟨request, by simp, hopen, hmore read hnew⟩
  · refine List.rel_append (kept.members.imp ?_) (.cons ?_ .nil)
    · intro earlier member hmember
      refine hmember.imp_right (And.imp_right ?_)
      rintro ⟨read, hread, hsame⟩
      exact ⟨read, List.mem_append_left _ hread, hsame⟩
    · refine hstage.imp_right ?_
      rintro ⟨hunsynced, hfull⟩
      obtain ⟨read, hread⟩ := List.exists_mem_of_ne_nil _ (hwhole hfull)
      exact ⟨⟨_, hunsynced⟩, read, List.mem_append_right _ hread, hmore read hread⟩

end Stage

theorem StageOwned.take (lawful : wire.Lawful) {frames news : List (Framed Stored)}
    {index : Index} {done : List (Staged × Handle.Served Fault)}
    {staging : Staging Disk Index Appended IoError} {request : Staged × Handle.Served Fault}
    {answers} {start : Bytes} (kept : StageOwned wire frames index done staging news)
    (hknown : Known wire frames answers index)
    (hstart : ∀ read ∈ frames, LiesOn wire read.record start)
    (hleft : Unsettled index request → tenantOf index.runs request.1.record.run = none →
      ∀ stored : Stored, LiesOn wire stored start → stored.run = request.1.record.run →
      stored.tenant = request.1.record.tenant)
    (hpairs : ∀ first ∈ done, Unsettled index first → Unsettled index request →
      request.1.record.run = first.1.record.run → request.1.record.tenant = first.1.record.tenant) :
    ∃ more, StageOwned wire frames index (done ++ [request])
      (staging.take (Handle.ordered (appendOnOwner wire) request)) (news ++ more) := by
  have hstep := appendStep wire request.1 request.2.fault staging.file staging.state
  have howned := ownedAnswer_congr kept.runs request.1.record (hexOf request.1.key.bytes)
  have hjoins := fun hopen => kept.joins hknown hstart hopen (hleft hopen)
    (fun first hfirst hearlier => hpairs first hfirst hearlier hopen)
  have hanswered : ∀ {answer : Except IoError Appended}, answer ≠ .ok .recorded → ∀ bytes,
      ∃ more, StageOwned wire frames index (done ++ [request]) ⟨staging.file, staging.state,
        staging.members ++ [⟨.settled answer, request.2.abandoned⟩], bytes⟩ (news ++ more) := by
    intro answer hanswer bytes
    refine ⟨[], ?_⟩
    rw [List.append_nil]
    exact kept.answered hanswer bytes
  generalize hjob : appendOnOwner wire request.1 request.2.fault staging.file staging.state =
    result at hstep
  cases hstep with
  | refused cause =>
    rw [Staging.take_error hjob]
    exact hanswered (by simp) _
  | owned answer hanswer _ =>
    rw [Staging.take_ok hjob]
    exact hanswered (by simpa using ownedAnswer_ne_recorded hanswer) _
  | repeated answer _ hstaged _ =>
    rw [Staging.take_ok hjob]
    exact hanswered (by simpa using stagedAnswer_ne_recorded hstaged) _
  | torn write moved cause hopen _ hwrite hfault =>
    rw [Staging.take_error hjob]
    rw [howned] at hopen
    have hunsettled : Unsettled index request := ⟨hopen, by rw [hfault]; simp⟩
    exact kept.written lawful (hjoins hunsettled) moved _ hunsettled hwrite
      (.inl ⟨_, rfl, by simp⟩)
  | written write hopen _ hwrite hfault =>
    rw [Staging.take_ok hjob]
    rw [howned] at hopen
    have hunsettled : Unsettled index request := ⟨hopen, by rw [hfault]; simp⟩
    have hnext := kept.written lawful (hjoins hunsettled) write.framed.length
      (staging.stagedBytes + write.framed.length) hunsettled hwrite (.inr ⟨rfl, Nat.le_refl _⟩)
    rw [List.take_length] at hnext
    exact hnext

theorem Known.mono {frames more : List (Framed Stored)} {answers next} {index : Index}
    (h : Known wire frames answers index) (hframes : frames ⊆ more) (hanswers : answers ⊆ next) :
    Known wire more next index := by
  refine ⟨?_, ?_⟩
  · intro run tenant htenant
    obtain ⟨read, hread, hrest⟩ := h.tenants run tenant htenant
    exact ⟨read, hframes hread, hrest⟩
  · intro run key held hheld
    obtain ⟨request, hrequest, hrest⟩ := h.steps run key held hheld
    exact ⟨request, hanswers hrequest, hrest⟩

theorem Known.congr {frames : List (Framed Stored)} {answers} {index other : Index}
    (h : Known wire frames answers index) (hruns : other.runs = index.runs) :
    Known wire frames answers other := by
  refine ⟨?_, ?_⟩
  · rw [hruns]
    exact h.tenants
  · rw [hruns]
    exact h.steps

theorem Known.settle {frames : List (Framed Stored)} {answers} {index : Index}
    {request : Staged} (h : Known wire frames answers index)
    (hanswer : (request, .ok .recorded) ∈ answers)
    (hread : ∃ read ∈ frames, read.record = request.record) :
    Known wire frames answers (Store.settle wire request.record index) := by
  refine ⟨?_, ?_⟩
  · intro run tenant htenant
    change tenantOf (insertStep index.runs request.record) run = some tenant at htenant
    rw [tenantOf_insertStep] at htenant
    split at htenant
    · rename_i hrun
      cases howner : tenantOf index.runs run with
      | none =>
        rw [howner] at htenant
        cases htenant
        obtain ⟨read, hin, hsame⟩ := hread
        exact ⟨read, hin, by rw [hsame, hrun], by rw [hsame]; rfl⟩
      | some owner =>
        rw [howner] at htenant
        cases htenant
        exact h.tenants run _ howner
    · exact h.tenants run tenant htenant
  · intro run key held hheld
    change stepOf (insertStep index.runs request.record) run key = some held at hheld
    rw [stepOf_insertStep] at hheld
    split at hheld
    · rename_i hplace
      cases hheld
      exact ⟨request, hanswer, hplace.1.symm, hplace.2.symm, rfl⟩
    · exact h.steps run key held hheld

theorem OnFile.congr {frames : List (Framed Stored)} {file : PositionedFile}
    {index other : Index} (h : OnFile wire frames file index)
    (hcommitted : other.committed = index.committed) (htail : other.tail = index.tail) :
    OnFile wire frames file other := by
  refine ⟨h.chained, h.position, ?_⟩
  rw [hcommitted, htail]
  exact h.stands

theorem folded_keeps {flushFailure : Option IoError} {members : List (Member Index Appended IoError)}
    (hmembers : ∀ member ∈ members, (∃ answer, member.staged = .settled answer) ∨
      ∃ stored bytes, member.staged = .unsynced .recorded bytes (settle wire stored)) :
    ∀ index : Index,
      (members.foldl (Member.folded flushFailure) index).committed = index.committed ∧
        (members.foldl (Member.folded flushFailure) index).tail = index.tail := by
  induction members with
  | nil =>
    intro index
    exact ⟨rfl, rfl⟩
  | cons member rest ih =>
    intro index
    obtain ⟨hcommitted, htail⟩ := ih
      (fun later hlater => hmembers later (List.mem_cons_of_mem _ hlater))
      (member.folded flushFailure index)
    have hone : (member.folded flushFailure index).committed = index.committed ∧
        (member.folded flushFailure index).tail = index.tail := by
      unfold Member.folded
      rcases hmembers member List.mem_cons_self with ⟨answer, hstaged⟩ | ⟨stored, bytes, hstaged⟩
      · rw [hstaged]
        exact ⟨rfl, rfl⟩
      · rw [hstaged]
        cases flushFailure with
        | none => exact ⟨rfl, rfl⟩
        | some cause => exact ⟨rfl, rfl⟩
    exact ⟨hcommitted.trans hone.1, htail.trans hone.2⟩

theorem Known.folded {frames : List (Framed Stored)} {answers}
    {members : List (Member Index Appended IoError)}
    (hmembers : ∀ member ∈ members, (∃ answer, member.staged = .settled answer) ∨
      ∃ request bytes, member.staged = .unsynced .recorded bytes (Store.settle wire request.record) ∧
        (request, .ok .recorded) ∈ answers ∧ ∃ read ∈ frames, read.record = request.record) :
    ∀ {index : Index}, Known wire frames answers index →
      Known wire frames answers (members.foldl (Member.folded none) index) := by
  induction members with
  | nil =>
    intro index h
    exact h
  | cons member rest ih =>
    intro index h
    rw [List.foldl_cons]
    refine ih (fun later hlater => hmembers later (List.mem_cons_of_mem _ hlater)) ?_
    unfold Member.folded
    rcases hmembers member List.mem_cons_self with ⟨answer, hstaged⟩ | ⟨request, bytes, hstaged, hrest⟩
    · rw [hstaged]
      exact h
    · rw [hstaged]
      exact h.settle hrest.1 hrest.2

namespace RunStore

structure OneOwner (wire : Wire) (frames : List (Framed Stored)) (store : RunStore) : Prop where
  onFile : OnFile wire frames store.file.file store.state
  one : OneTenant (frames.map Framed.record)
  known : Known wire frames store.answers store.state
  recorded : ∀ request, (request, .ok .recorded) ∈ store.answers →
    ∃ read ∈ frames, read.record = request.record

theorem OneOwner.submit {frames : List (Framed Stored)} {store : RunStore}
    (owner : OneOwner wire frames store) (request : Staged) :
    OneOwner wire frames (store.act wire (.submit request)) := by
  have hrefused : ∀ cause, OneOwner wire frames
      { store with answers := store.answers ++ [(request, .error cause)] } := by
    intro cause
    refine ⟨owner.onFile, owner.one,
      owner.known.mono (List.Subset.refl _) (List.subset_append_left _ _), ?_⟩
    intro asked hasked
    rcases List.mem_append.mp hasked with hbefore | hlast
    · exact owner.recorded asked hbefore
    · cases List.mem_singleton.mp hlast
  unfold act Handle.submit
  simp only []
  split
  · exact hrefused _
  · split
    · exact ⟨owner.onFile, owner.one, owner.known, owner.recorded⟩
    · split
      · exact ⟨owner.onFile, owner.one, owner.known, owner.recorded⟩
      · exact hrefused _

theorem OneOwner.stage (lawful : wire.Lawful) {frames : List (Framed Stored)} {store : RunStore}
    {served : List (Handle.Served Fault)} {flushed : Bool}
    {taken : List (Staged × Handle.Served Fault)} (owner : OneOwner wire frames store)
    (hshares : store.SharesNoNewRun wire (.batch served flushed))
    (htaken : taken <+: store.arrived served) :
    ∃ news, StageOwned wire frames store.state taken
      ((taken.map (Handle.ordered (appendOnOwner wire))).foldl Staging.take
        ⟨store.file, store.state, [], 0⟩) news := by
  obtain ⟨hleft, hpairs⟩ := hshares
  refine Staging.stage_invariant (I := fun done staging =>
    ∃ news, StageOwned wire frames store.state done staging news) taken ?_ ?_
  · refine ⟨[], ?_, rfl, ?_, by simp, .nil⟩
    · rw [List.append_nil]
      exact owner.onFile
    · rw [List.append_nil]
      exact owner.one
  · rintro done request staging - hdone ⟨news, hkept⟩
    have hahead := hdone.trans htaken
    have hbefore := hpairs.sublist hahead.sublist
    rw [List.pairwise_append] at hbefore
    obtain ⟨more, hnext⟩ := hkept.take lawful owner.known
      (fun read hread => owner.onFile.liesOn hread)
      (hleft request (hahead.subset (by simp)))
      (fun first hfirst => hbefore.2.2 first hfirst request (List.mem_singleton_self _))
    exact ⟨news ++ more, hnext⟩

theorem OneOwner.batch (lawful : wire.Lawful) {frames : List (Framed Stored)} {store : RunStore}
    {served : List (Handle.Served Fault)} {flushed : Bool} (owner : OneOwner wire frames store)
    (hshares : store.SharesNoNewRun wire (.batch served flushed)) :
    ∃ news, OneOwner wire (frames ++ news) (store.act wire (.batch served flushed)) := by
  obtain ⟨taken, htaken, outcome, hends, hbatch⟩ := Handle.batch_ends (appendOnOwner wire)
    Disk.syncAll flushRefusal store served flushed
  obtain ⟨news, hstage⟩ := owner.stage lawful hshares htaken
  change ∃ news, OneOwner wire (frames ++ news)
    (store.batch (appendOnOwner wire) Disk.syncAll flushRefusal served flushed)
  rw [hbatch]
  generalize (taken.map (Handle.ordered (appendOnOwner wire))).foldl Staging.take
    ⟨store.file, store.state, [], 0⟩ = staging at hends hstage
  have hpair : ∀ {request member}, (request, member) ∈ taken.zip staging.members →
      (∃ answer, member.staged = .settled answer ∧ answer ≠ .ok .recorded) ∨
        (∃ bytes, member.staged = .unsynced .recorded bytes (settle wire request.1.record)) ∧
          ∃ read ∈ news, read.record = request.1.record :=
    (List.forall₂_iff_zip.mp hstage.members).2
  have hof : ∀ member ∈ staging.members, ∃ request, (request, member) ∈ taken.zip staging.members := by
    intro member hmember
    have hsnd := List.map_snd_zip (Nat.le_of_eq (List.forall₂_iff_zip.mp hstage.members).1.symm)
    rw [← hsnd] at hmember
    obtain ⟨⟨request, other⟩, hin, rfl⟩ := List.mem_map.mp hmember
    exact ⟨request, hin⟩
  have hclosed : ∀ (flushFailure : Option IoError) (disk : Disk), disk.file = staging.file.file →
      outcome = staging.close flushFailure disk → ∀ next : RunStore, next.file = outcome.file →
      next.state = outcome.state → next.answers = store.answers ++
        (taken.map Prod.fst).zip (outcome.answers.map Handle.published) →
      OneOwner wire (frames ++ news) next := by
    intro flushFailure disk hdisk houtcome next hfile hstate hanswers
    rw [houtcome] at hfile hstate hanswers
    have hold : store.answers ⊆ next.answers := by
      rw [hanswers]
      exact List.subset_append_left _ _
    have hnow : ∀ {request member}, (request, member) ∈ taken.zip staging.members →
        (request.1, Handle.published (member.answered flushFailure)) ∈ next.answers := by
      intro request member hin
      rw [hanswers]
      exact List.mem_append_right _ (Handle.mem_answers.mpr ⟨request, member, hin, rfl⟩)
    have hknown : Known wire (frames ++ news) next.answers staging.state :=
      (owner.known.mono (List.subset_append_left _ _) hold).congr hstage.runs
    have hfolds : ∀ member ∈ staging.members, (∃ answer, member.staged = .settled answer) ∨
        ∃ stored bytes, member.staged = .unsynced .recorded bytes (settle wire stored) := by
      intro member hmember
      obtain ⟨request, hin⟩ := hof member hmember
      rcases hpair hin with ⟨answer, hstaged, -⟩ | ⟨⟨bytes, hstaged⟩, -⟩
      · exact .inl ⟨answer, hstaged⟩
      · exact .inr ⟨request.1.record, bytes, hstaged⟩
    obtain ⟨hcommitted, htail⟩ := folded_keeps hfolds staging.state
    refine ⟨?_, hstage.one, ?_, ?_⟩
    · rw [hfile, hstate]
      change OnFile wire (frames ++ news) disk.file _
      rw [hdisk]
      exact hstage.onFile.congr hcommitted htail
    · rw [hstate]
      cases flushFailure with
      | some cause =>
        rw [Staging.close, Member.foldl_folded (.inl (by simp))]
        exact hknown
      | none =>
        refine Known.folded ?_ hknown
        intro member hmember
        obtain ⟨request, hin⟩ := hof member hmember
        rcases hpair hin with ⟨answer, hstaged, -⟩ | ⟨⟨bytes, hstaged⟩, read, hread, hsame⟩
        · exact .inl ⟨answer, hstaged⟩
        · have hrecorded := hnow hin
          unfold Member.answered at hrecorded
          rw [hstaged] at hrecorded
          exact .inr ⟨request.1, bytes, hstaged, hrecorded, read,
            List.mem_append_right _ hread, hsame⟩
    · intro asked hasked
      rw [hanswers] at hasked
      rcases List.mem_append.mp hasked with hbefore | hafter
      · obtain ⟨read, hread, hsame⟩ := owner.recorded asked hbefore
        exact ⟨read, List.mem_append_left _ hread, hsame⟩
      · obtain ⟨request, member, hin, hone⟩ := Handle.mem_answers.mp hafter
        obtain ⟨rfl, hvalue⟩ := Prod.mk.inj hone
        rcases hpair hin with ⟨answer, hstaged, hother⟩ | ⟨-, read, hread, hsame⟩
        · have hmine := Handle.published_eq_ok.mp hvalue.symm
          unfold Member.answered at hmine
          rw [hstaged] at hmine
          exact absurd hmine hother
        · exact ⟨read, List.mem_append_right _ hread, hsame⟩
  refine ⟨news, ?_⟩
  cases hends with
  | synced _ _ => exact hclosed none staging.file.syncAll rfl rfl _ rfl rfl rfl
  | failed _ _ => exact hclosed (some flushRefusal) staging.file rfl rfl _ rfl rfl rfl
  | settled _ => exact hclosed none staging.file rfl rfl _ rfl rfl rfl

theorem oneOwner_created (wire : Wire) : OneOwner wire [] (created wire) := by
  have hlive := live_created wire
  refine ⟨⟨trivial, ?_, [], ?_, Format.cut_nil (by decide), .inl ⟨rfl, ?_, rfl⟩⟩,
    List.Pairwise.nil, ⟨?_, ?_⟩, ?_⟩
  · rw [hlive.file]
  · rw [hlive.file, List.append_nil]
  · rw [hlive.committed, hlive.file]
  · intro run tenant htenant
    cases htenant
  · intro run key held hheld
    cases hheld
  · intro request hrequest
    cases hrequest

end RunStore

namespace PlainWire

open RunStore

def sharedBatch : List Action :=
  [.submit (request 1 "a" 1 [7]), .submit (request 1 "b" 2 [8]), .batch [served, served] true]

end PlainWire

def Index.Holds (index : Index) (place : RunId × String) : Prop :=
  stepOf index.runs place.1 place.2 ≠ none ∨ index.staged.get place ≠ none

theorem Index.Holds.stage {index : Index} {place : RunId × String} (h : index.Holds place)
    (request : Staged) (write : Write) : (index.stage request write).Holds place := by
  refine h.imp_right fun hstaged => ?_
  simp only [Index.stage, Table.get_insert]
  split
  · exact Option.some_ne_none _
  · exact hstaged

theorem Index.holds_stage (index : Index) (request : Staged) (write : Write) :
    (index.stage request write).Holds request.record.place := by
  refine .inr ?_
  simp [Index.stage, Stored.place, request.record_key]

theorem Index.Holds.settle {index : Index} {place : RunId × String} (h : index.Holds place)
    (stored : Stored) : (Store.settle wire stored index).Holds place := by
  unfold Index.Holds Store.settle
  simp only [stepOf_insertStep, Table.get_remove]
  by_cases hplace : place = stored.place
  · rw [hplace]
    exact .inl (by simp [Stored.place])
  · have hother : ¬ (place.1 = stored.run ∧ place.2 = hexOf stored.key) :=
      fun hsame => hplace (Prod.ext hsame.1 hsame.2)
    rw [if_neg hother, if_neg (show ¬ place = (stored.run, hexOf stored.key) from hplace)]
    exact h

theorem Index.Holds.folded {flushFailure : Option IoError} {place : RunId × String}
    {members : List (Member Index Appended IoError)}
    (hmembers : ∀ member ∈ members, (∃ answer, member.staged = .settled answer) ∨
      ∃ stored bytes, member.staged = .unsynced .recorded bytes (Store.settle wire stored)) :
    ∀ {index : Index}, index.Holds place →
      (members.foldl (Member.folded flushFailure) index).Holds place := by
  induction members with
  | nil => exact id
  | cons member rest ih =>
    intro index h
    refine ih (fun later hlater => hmembers later (List.mem_cons_of_mem _ hlater)) ?_
    unfold Member.folded
    rcases hmembers member List.mem_cons_self with ⟨answer, hstaged⟩ | ⟨stored, bytes, hstaged⟩
    · rw [hstaged]
      exact h
    · rw [hstaged]
      cases flushFailure with
      | none => exact h.settle stored
      | some cause => exact h

/-- The frames stand on the file, each for a step of its own that the index holds. -/
structure Once (wire : Wire) (frames : List (Framed Stored)) (file : PositionedFile)
    (index : Index) : Prop where
  onFile : OnFile wire frames file index
  places : (frames.map fun read => read.record.place).Nodup
  held : ∀ read ∈ frames, index.Holds read.record.place

theorem Once.write (lawful : wire.Lawful) {frames : List (Framed Stored)} {file : PositionedFile}
    {index : Index} {request : Staged} {write : Write} (moved : Nat)
    (h : Once wire frames file index)
    (howned : ownedAnswer index request.record (hexOf request.key.bytes) = .ok none)
    (hstaged : stagedAnswer index request.record (hexOf request.key.bytes) = none)
    (hwrite : prepareWrite wire file.len index request.record = .ok write) :
    ∃ more, Once wire (frames ++ more) (file.writeAll (write.framed.take moved))
        (index.stage request write) ∧
      (write.framed.length ≤ moved → more.map Framed.record = [request.record]) := by
  have hfree : ¬ index.Holds request.record.place := by
    rw [← request.record_key] at howned hstaged
    rintro (hstep | hrow)
    · exact hstep (ownedAnswer_none howned).1
    · exact hrow (Option.map_eq_none_iff.mp hstaged)
  obtain ⟨more, honFile, hmore, hfew, hwhole⟩ := h.onFile.write lawful moved hwrite
  match more, hfew with
  | [], _ =>
    rw [List.append_nil] at honFile
    refine ⟨[], ?_, fun hfull => absurd rfl (hwhole hfull)⟩
    rw [List.append_nil]
    exact ⟨honFile, h.places, fun read hread => (h.held read hread).stage _ _⟩
  | [read], _ =>
    have hrecord := hmore read (List.mem_singleton_self _)
    refine ⟨[read], ⟨honFile, ?_, ?_⟩, fun _ => by simp [hrecord]⟩
    · rw [List.map_append, List.nodup_append]
      refine ⟨h.places, List.nodup_singleton _, ?_⟩
      rintro place hplace last hlast rfl
      obtain ⟨earlier, hearlier, rfl⟩ := List.mem_map.mp hplace
      rw [List.map_singleton, List.mem_singleton, hrecord] at hlast
      exact hfree (hlast ▸ h.held earlier hearlier)
    · intro other hother
      rcases List.mem_append.mp hother with hold | hnew
      · exact (h.held other hold).stage _ _
      · rw [List.mem_singleton.mp hnew, hrecord]
        exact index.holds_stage _ _

/-- What holds of a batch while it is staged: `news` stand behind the frames, and what it records,
however its flush ends, stands among them in order. -/
structure StageOnce (wire : Wire) (frames : List (Framed Stored))
    (done : List (Staged × Handle.Served Fault))
    (staging : Staging Disk Index Appended IoError) (news : List (Framed Stored)) : Prop where
  once : Once wire (frames ++ news) staging.file.file staging.state
  folds : ∀ member ∈ staging.members, (∃ answer, member.staged = .settled answer) ∨
    ∃ stored bytes, member.staged = .unsynced .recorded bytes (settle wire stored)
  count : done.length = staging.members.length
  recorded : ∀ flushFailure, (recordedOf ((done.map Prod.fst).zip
    ((staging.members.map (Member.answered flushFailure)).map Handle.published))).Sublist
      (news.map Framed.record)

section Stage

variable {frames news : List (Framed Stored)} {done : List (Staged × Handle.Served Fault)}
  {staging : Staging Disk Index Appended IoError} {request : Staged × Handle.Served Fault}

theorem StageOnce.next (h : StageOnce wire frames done staging news) {more : List (Framed Stored)}
    {disk : Disk} {index : Index} {stage : Stage Index Appended IoError} (bytes : Nat)
    (honce : Once wire (frames ++ (news ++ more)) disk.file index)
    (hstage : (∃ answer, stage = .settled answer ∧ answer ≠ .ok .recorded) ∨
      (∃ bytes, stage = .unsynced .recorded bytes (settle wire request.1.record)) ∧
        more.map Framed.record = [request.1.record]) :
    StageOnce wire frames (done ++ [request])
      ⟨disk, index, staging.members ++ [⟨stage, request.2.abandoned⟩], bytes⟩ (news ++ more) := by
  refine ⟨honce, ?_, by simp [h.count], fun flushFailure => ?_⟩
  · intro member hmember
    rcases List.mem_append.mp hmember with hold | hnew
    · exact h.folds member hold
    · rw [List.mem_singleton.mp hnew]
      rcases hstage with ⟨answer, hanswer, -⟩ | ⟨⟨bytes, hunsynced⟩, -⟩
      · exact .inl ⟨answer, hanswer⟩
      · exact .inr ⟨_, bytes, hunsynced⟩
  · simp only [List.map_append]
    rw [List.zip_append (by simp [h.count]), recordedOf_append]
    refine (h.recorded flushFailure).append ?_
    have hnone {answer : Except IoError Appended} (hother : answer ≠ .ok .recorded) :
        recordedOf ([request.1].zip [Handle.published answer]) = [] := by
      have hpublished : Handle.published answer ≠ .ok .recorded :=
        fun hsame => hother (Handle.published_eq_ok.mp hsame)
      simp [recordedOf, hpublished]
    rcases hstage with ⟨answer, rfl, hother⟩ | ⟨⟨bytes, rfl⟩, hwhole⟩
    · change (recordedOf ([request.1].zip [Handle.published answer])).Sublist _
      rw [hnone hother]
      exact List.nil_sublist _
    · cases flushFailure with
      | none =>
        rw [hwhole]
        exact List.Sublist.refl _
      | some cause =>
        change (recordedOf ([request.1].zip [Handle.published (.error cause)])).Sublist _
        rw [hnone (by simp)]
        exact List.nil_sublist _

theorem StageOnce.take (lawful : wire.Lawful) (h : StageOnce wire frames done staging news) :
    ∃ more, StageOnce wire frames (done ++ [request])
      (staging.take (Handle.ordered (appendOnOwner wire) request)) (news ++ more) := by
  have hstep := appendStep wire request.1 request.2.fault staging.file staging.state
  have hanswered {answer : Except IoError Appended} (hother : answer ≠ .ok .recorded) (bytes) :
      ∃ more, StageOnce wire frames (done ++ [request]) ⟨staging.file, staging.state,
        staging.members ++ [⟨.settled answer, request.2.abandoned⟩], bytes⟩ (news ++ more) :=
    ⟨[], h.next bytes (by rw [List.append_nil]; exact h.once) (.inl ⟨answer, rfl, hother⟩)⟩
  generalize hjob : appendOnOwner wire request.1 request.2.fault staging.file staging.state =
    result at hstep
  cases hstep with
  | refused cause =>
    rw [Staging.take_error hjob]
    exact hanswered (by simp) _
  | owned answer howned _ =>
    rw [Staging.take_ok hjob]
    exact hanswered (by simpa using ownedAnswer_ne_recorded howned) _
  | repeated answer _ hstaged _ =>
    rw [Staging.take_ok hjob]
    exact hanswered (by simpa using stagedAnswer_ne_recorded hstaged) _
  | torn write moved cause howned hstaged hwrite _ =>
    rw [Staging.take_error hjob]
    obtain ⟨more, honce, -⟩ := h.once.write lawful moved howned hstaged hwrite
    rw [List.append_assoc] at honce
    exact ⟨more, h.next _ honce (.inl ⟨_, rfl, by simp⟩)⟩
  | written write howned hstaged hwrite _ =>
    rw [Staging.take_ok hjob]
    obtain ⟨more, honce, hwhole⟩ :=
      h.once.write lawful write.framed.length howned hstaged hwrite
    rw [List.append_assoc, List.take_length] at honce
    exact ⟨more, h.next _ honce (.inr ⟨⟨_, rfl⟩, hwhole (Nat.le_refl _)⟩)⟩

end Stage

namespace RunStore

structure RecordedOnce (wire : Wire) (frames : List (Framed Stored)) (store : RunStore) : Prop where
  once : Once wire frames store.file.file store.state
  recorded : (recordedOf store.answers).Sublist (frames.map Framed.record)

theorem RecordedOnce.submit {frames : List (Framed Stored)} {store : RunStore}
    (h : RecordedOnce wire frames store) (request : Staged) :
    RecordedOnce wire frames (store.act wire (.submit request)) := by
  have hrefused (cause) : RecordedOnce wire frames
      { store with answers := store.answers ++ [(request, .error cause)] } := by
    refine ⟨h.once, ?_⟩
    rw [recordedOf_append]
    simpa [recordedOf] using h.recorded
  unfold act Handle.submit
  simp only []
  split
  · exact hrefused _
  · split
    · exact ⟨h.once, h.recorded⟩
    · split
      · exact ⟨h.once, h.recorded⟩
      · exact hrefused _

theorem RecordedOnce.batch (lawful : wire.Lawful) {frames : List (Framed Stored)} {store : RunStore}
    (h : RecordedOnce wire frames store) (served : List (Handle.Served Fault)) (flushed : Bool) :
    ∃ news, RecordedOnce wire (frames ++ news) (store.act wire (.batch served flushed)) := by
  obtain ⟨taken, -, outcome, hends, hbatch⟩ := Handle.batch_ends (appendOnOwner wire)
    Disk.syncAll flushRefusal store served flushed
  have hstage : ∃ news, StageOnce wire frames taken
      ((taken.map (Handle.ordered (appendOnOwner wire))).foldl Staging.take
        ⟨store.file, store.state, [], 0⟩) news := by
    refine Staging.stage_invariant (I := fun done staging =>
      ∃ news, StageOnce wire frames done staging news) taken ?_ ?_
    · refine ⟨[], ?_, nofun, rfl, fun _ => List.Sublist.refl _⟩
      rw [List.append_nil]
      exact h.once
    · rintro done request staging - - ⟨news, hkept⟩
      obtain ⟨more, hnext⟩ := hkept.take lawful
      exact ⟨news ++ more, hnext⟩
  obtain ⟨news, hstage⟩ := hstage
  change ∃ news, RecordedOnce wire (frames ++ news)
    (store.batch (appendOnOwner wire) Disk.syncAll flushRefusal served flushed)
  rw [hbatch]
  generalize (taken.map (Handle.ordered (appendOnOwner wire))).foldl Staging.take
    ⟨store.file, store.state, [], 0⟩ = staging at hends hstage
  have hclosed : ∀ (flushFailure : Option IoError) (disk : Disk), disk.file = staging.file.file →
      outcome = staging.close flushFailure disk → ∀ next : RunStore, next.file = outcome.file →
      next.state = outcome.state → next.answers = store.answers ++
        (taken.map Prod.fst).zip (outcome.answers.map Handle.published) →
      RecordedOnce wire (frames ++ news) next := by
    intro flushFailure disk hdisk houtcome next hfile hstate hanswers
    rw [houtcome] at hfile hstate hanswers
    obtain ⟨hcommitted, htail⟩ := folded_keeps hstage.folds staging.state
    refine ⟨⟨?_, hstage.once.places, fun read hread => ?_⟩, ?_⟩
    · rw [hfile, hstate]
      change OnFile wire (frames ++ news) disk.file _
      rw [hdisk]
      exact hstage.once.onFile.congr hcommitted htail
    · rw [hstate]
      exact (hstage.once.held read hread).folded hstage.folds
    · rw [hanswers, recordedOf_append, List.map_append]
      exact h.recorded.append (hstage.recorded flushFailure)
  refine ⟨news, ?_⟩
  cases hends with
  | synced _ _ => exact hclosed none staging.file.syncAll rfl rfl _ rfl rfl rfl
  | failed _ _ => exact hclosed (some flushRefusal) staging.file rfl rfl _ rfl rfl rfl
  | settled _ => exact hclosed none staging.file rfl rfl _ rfl rfl rfl

/-- Whatever the device does to a run, a step is on the file at most once, and what was answered
as recorded is there in the order of the answers. -/
theorem recorded_at_most_once (lawful : wire.Lawful) {final : RunStore}
    {trace : List (RunStore × Action)} (run : Run (Step wire) (created wire) trace final) :
    ∃ frames cut, (format wire).Chained (format wire).genesis frames ∧
      final.file.file.bytes = (format wire).fileOf frames ++ cut ∧ Format.Cut maxRecordBytes cut ∧
      (frames.map fun read => read.record.place).Nodup ∧
      (recordedOf final.answers).Sublist (frames.map Framed.record) := by
  have honce : ∃ frames, RecordedOnce wire frames final := by
    refine @Run.always _ _ _ _ _ _ (fun store => ∃ frames, RecordedOnce wire frames store) run ?_ ?_
    · exact ⟨[], ⟨(oneOwner_created wire).onFile, List.nodup_nil, nofun⟩, List.Sublist.refl _⟩
    · rintro store action next ⟨frames, hstore⟩ hstep
      rw [← hstep]
      cases action with
      | submit request => exact ⟨frames, hstore.submit request⟩
      | batch served flushed =>
        obtain ⟨news, hnext⟩ := hstore.batch lawful served flushed
        exact ⟨frames ++ news, hnext⟩
  obtain ⟨frames, honce⟩ := honce
  obtain ⟨cut, hbytes, hcut, -⟩ := honce.once.onFile.stands
  exact ⟨frames, cut, honce.once.onFile.chained, hbytes, hcut, honce.once.places, honce.recorded⟩

end RunStore

namespace PlainWire

open RunStore

def repeatedBatch : List Action :=
  [.submit (request 1 "a" 1 [7]), .submit (request 1 "a" 1 [7]), .batch [served, served] true]

theorem recorded_at_most_once_repeated : ∃ frames cut,
    (format plain).Chained (format plain).genesis frames ∧
      (repeatedBatch.foldl (act plain) (created plain)).file.file.bytes =
        (format plain).fileOf frames ++ cut ∧ Format.Cut maxRecordBytes cut ∧
      (frames.map fun read => read.record.place).Nodup ∧
      (recordedOf (repeatedBatch.foldl (act plain) (created plain)).answers).Sublist
        (frames.map Framed.record) :=
  recorded_at_most_once lawful (Run.ofActions (act plain) (created plain) repeatedBatch)

end PlainWire

end LogicalWorks.Task.Store
