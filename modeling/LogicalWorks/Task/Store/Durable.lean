import LogicalWorks.Task.Store.PlainWire

/-! What an acknowledged append leaves on the device: a record that some sync covered, as
long as no request repeats a record whose own write or flush failed. -/
namespace LogicalWorks.Task.Store

open Journal Owner.Batch

variable {wire : Wire}

def LiesOn (wire : Wire) (stored : Stored) (bytes : Bytes) : Prop :=
  ∃ frame : Frame, ∃ left right, wire.storedFromBytes frame.payload = some stored ∧
    bytes = left ++ frame.bytes ++ right

def Stored.Names (stored record : Stored) : Prop :=
  stored.run = record.run ∧ stored.key = record.key ∧ stored.value = record.value

/-- A record with that run, key and value is on the file, and a sync that returned found it
there. -/
def Durable (wire : Wire) (record : Stored) (disk : Disk) : Prop :=
  ∃ stored : Stored, stored.Names record ∧ LiesOn wire stored disk.synced ∧
    LiesOn wire stored disk.file.bytes

def Acknowledged (answer : Except (SubmitError IoError) Appended) : Prop :=
  answer = .ok .recorded ∨ answer = .ok .alreadyRecorded

/-- A request the settled index leaves to the batch, on a device that lets it run. -/
def Unsettled (index : Index) (request : Staged × Handle.Served Fault) : Prop :=
  ownedAnswer index request.1.record (hexOf request.1.key.bytes) = .ok none ∧
    request.2.fault ≠ .refused

namespace RunStore

/-- No request of the batch repeats a record that failed: one left staged by an earlier
batch is durable by now, and one staged by this batch is written in full and flushed. -/
def RepeatsNoFailure (wire : Wire) (store : RunStore) : Action → Prop
  | .submit _ => True
  | .batch served flushed =>
    (∀ request ∈ store.arrived served, Unsettled store.state request →
      store.state.staged.get (request.1.record.run, hexOf request.1.record.key) =
        some request.1.record.value → Durable wire request.1.record store.file) ∧
    (store.arrived served).Pairwise fun first second =>
      Unsettled store.state first → Unsettled store.state second →
      second.1.record.Names first.1.record →
      flushed = true ∧ ∀ moved, first.2.fault ≠ .torn moved

end RunStore

theorem LiesOn.mono {stored : Stored} {bytes more : Bytes} (h : LiesOn wire stored bytes)
    (hmore : bytes <+: more) : LiesOn wire stored more := by
  obtain ⟨frame, left, right, hdecode, rfl⟩ := h
  obtain ⟨rest, rfl⟩ := hmore
  exact ⟨frame, left, right ++ rest, hdecode, by simp only [List.append_assoc]⟩

theorem Durable.mono {record : Stored} {disk next : Disk} (h : Durable wire record disk)
    (hsynced : disk.synced <+: next.synced) (hfile : disk.file.bytes <+: next.file.bytes) :
    Durable wire record next := by
  obtain ⟨stored, hnames, hlies, hbytes⟩ := h
  exact ⟨stored, hnames, hlies.mono hsynced, hbytes.mono hfile⟩

theorem liesOn_write (lawful : wire.Lawful) {onDisk : Nat} {index : Index} {stored : Stored}
    {write : Write} {file : PositionedFile}
    (hwrite : prepareWrite wire onDisk index stored = .ok write)
    (hposition : file.bytes.length ≤ file.position) :
    LiesOn wire stored (file.writeAll write.framed).bytes := by
  obtain ⟨read, hrecord, hframed, -, hdecode, -⟩ := prepareWrite_framed lawful hwrite
  have hne : read.frame.bytes ≠ [] := by
    refine List.ne_nil_of_length_pos ?_
    rw [Frame.length_bytes, framedLen]
    unfold headBytes
    omega
  rw [hframed, PositionedFile.writeAll_behind_end hne hposition]
  refine ⟨read.frame, _, [], ?_, by rw [List.append_nil]⟩
  rw [← hrecord]
  exact hdecode

def Settled (wire : Wire) (runs : Table RunId RunIndex) (bytes : Bytes) : Prop :=
  ∀ run key held, stepOf runs run key = some held →
    ∃ stored : Stored, stored.run = run ∧ hexOf stored.key = key ∧ stored.value = held.bytes ∧
      LiesOn wire stored bytes

theorem Settled.mono {runs : Table RunId RunIndex} {bytes more : Bytes}
    (h : Settled wire runs bytes) (hmore : bytes <+: more) : Settled wire runs more := by
  intro run key held hheld
  obtain ⟨stored, hrun, hkey, hvalue, hlies⟩ := h run key held hheld
  exact ⟨stored, hrun, hkey, hvalue, hlies.mono hmore⟩

theorem Settled.insertStep {runs : Table RunId RunIndex} {bytes : Bytes} {stored : Stored}
    (h : Settled wire runs bytes) (hlies : LiesOn wire stored bytes) :
    Settled wire (Store.insertStep runs stored) bytes := by
  intro run key held hheld
  rw [stepOf_insertStep] at hheld
  split at hheld
  · rename_i hplace
    cases hheld
    exact ⟨stored, hplace.1.symm, hplace.2.symm, rfl, hlies⟩
  · exact h run key held hheld

theorem Settled.durable {index : Index} {record : Stored} {disk : Disk} {answer : Appended}
    (h : Settled wire index.runs disk.synced) (hsynced : disk.synced <+: disk.file.bytes)
    (howned : ownedAnswer index record (hexOf record.key) = .ok (some answer))
    (hanswer : answer ≠ .conflicting) : Durable wire record disk := by
  obtain ⟨held, hstep, hkind⟩ := ownedAnswer_some howned
  have hvalue : held.bytes = record.value := by
    by_contra hother
    rw [if_neg hother] at hkind
    exact hanswer hkind
  obtain ⟨stored, hrun, hkey, hbytes, hlies⟩ := h _ _ _ hstep
  exact ⟨stored, ⟨hrun, hexOf_inj hkey, hbytes.trans hvalue⟩, hlies, hlies.mono hsynced⟩

inductive MemberKept (wire : Wire) (start : Disk) (bytes : Bytes) (flushed : Bool)
    (owes : Prop) (record : Stored) : Stage Index Appended IoError → Prop where
  | refused (cause : IoError) :
      MemberKept wire start bytes flushed owes record (.settled (.error cause))
  | conflicting :
      MemberKept wire start bytes flushed owes record (.settled (.ok .conflicting))
  | durable (answer : Appended) (hdurable : Durable wire record start) :
      MemberKept wire start bytes flushed owes record (.settled (.ok answer))
  | covered (answer : Appended) (stored : Stored) (hnames : stored.Names record)
      (hlies : LiesOn wire stored bytes) (hflushed : flushed = true) (howes : owes) :
      MemberKept wire start bytes flushed owes record (.settled (.ok answer))
  | written (length : Nat) (hlies : LiesOn wire record bytes) :
      MemberKept wire start bytes flushed owes record
        (.unsynced .recorded length (settle wire record))

theorem MemberKept.mono {start : Disk} {bytes more : Bytes} {flushed : Bool} {owes still : Prop}
    {record : Stored} {stage : Stage Index Appended IoError}
    (h : MemberKept wire start bytes flushed owes record stage) (hmore : bytes <+: more)
    (hstill : owes → still) : MemberKept wire start more flushed still record stage := by
  cases h with
  | refused cause => exact .refused cause
  | conflicting => exact .conflicting
  | durable answer hdurable => exact .durable answer hdurable
  | covered answer stored hnames hlies hflushed howes =>
    exact .covered answer stored hnames (hlies.mono hmore) hflushed (hstill howes)
  | written length hlies => exact .written length (hlies.mono hmore)

def Owes (members : List (Member Index Appended IoError)) : Prop :=
  ∃ member ∈ members, member.staged.owesFlush = true

/-- What holds of a batch while it is staged: only the file and the staged records grow, a
staged record is left over or whole on the file, and every answer has its ground. -/
structure StageKept (wire : Wire) (start : Disk) (index : Index) (flushed : Bool)
    (done : List (Staged × Handle.Served Fault))
    (staging : Staging Disk Index Appended IoError) : Prop where
  runs : staging.state.runs = index.runs
  synced : staging.file.synced = start.synced
  grown : start.file.bytes <+: staging.file.file.bytes
  position : staging.file.file.bytes.length ≤ staging.file.file.position
  staged : ∀ run key value, staging.state.staged.get (run, key) = some value →
    index.staged.get (run, key) = some value ∨
      ∃ first ∈ done, Unsettled index first ∧ run = first.1.record.run ∧
        key = hexOf first.1.record.key ∧ value = first.1.record.value ∧
        ((∀ moved, first.2.fault ≠ .torn moved) →
          LiesOn wire first.1.record staging.file.file.bytes ∧ Owes staging.members)
  members : List.Forall₂ (fun request member =>
    MemberKept wire start staging.file.file.bytes flushed (Owes staging.members)
      request.1.record member.staged) done staging.members

theorem StageKept.answer {start : Disk} {index : Index} {flushed : Bool}
    {done : List (Staged × Handle.Served Fault)} {staging : Staging Disk Index Appended IoError}
    {request : Staged × Handle.Served Fault} {answer : Except IoError Appended} {bytes : Nat}
    (kept : StageKept wire start index flushed done staging)
    (hanswer : MemberKept wire start staging.file.file.bytes flushed (Owes staging.members)
      request.1.record (.settled answer)) :
    StageKept wire start index flushed (done ++ [request])
      ⟨staging.file, staging.state,
        staging.members ++ [⟨.settled answer, request.2.abandoned⟩], bytes⟩ := by
  have howes : Owes staging.members →
      Owes (staging.members ++ [⟨.settled answer, request.2.abandoned⟩]) := by
    rintro ⟨member, hmember, hmine⟩
    exact ⟨member, List.mem_append_left _ hmember, hmine⟩
  refine ⟨kept.runs, kept.synced, kept.grown, kept.position, ?_, ?_⟩
  · intro run key value hstaged
    refine (kept.staged run key value hstaged).imp_right ?_
    rintro ⟨first, hfirst, hopen, hrun, hkey, hvalue, hwhole⟩
    refine ⟨first, List.mem_append_left _ hfirst, hopen, hrun, hkey, hvalue, ?_⟩
    intro huntorn
    exact ⟨(hwhole huntorn).1, howes (hwhole huntorn).2⟩
  · refine List.rel_append (kept.members.imp ?_) (.cons ?_ .nil)
    · intro earlier member hmember
      exact hmember.mono (List.prefix_refl _) howes
    · exact hanswer.mono (List.prefix_refl _) howes

theorem StageKept.write {start : Disk} {index : Index} {flushed : Bool}
    {done : List (Staged × Handle.Served Fault)} {staging : Staging Disk Index Appended IoError}
    {request : Staged × Handle.Served Fault} {write : Write} {data : Bytes}
    {stage : Stage Index Appended IoError} {bytes : Nat}
    (kept : StageKept wire start index flushed done staging)
    (hopen : Unsettled index request)
    (hmember : MemberKept wire start (staging.file.file.writeAll data).bytes flushed
      (Owes (staging.members ++ [⟨stage, request.2.abandoned⟩])) request.1.record stage)
    (hwhole : (∀ moved, request.2.fault ≠ .torn moved) → stage.owesFlush = true ∧
      LiesOn wire request.1.record (staging.file.file.writeAll data).bytes) :
    StageKept wire start index flushed (done ++ [request])
      ⟨{ staging.file with file := staging.file.file.writeAll data },
        staging.state.stage request.1 write,
        staging.members ++ [⟨stage, request.2.abandoned⟩], bytes⟩ := by
  obtain ⟨hgrown, hend⟩ := PositionedFile.writeAll_grows data kept.position
  have howes : Owes staging.members →
      Owes (staging.members ++ [⟨stage, request.2.abandoned⟩]) := by
    rintro ⟨member, hin, hmine⟩
    exact ⟨member, List.mem_append_left _ hin, hmine⟩
  refine ⟨kept.runs, kept.synced, kept.grown.trans hgrown, hend, ?_, ?_⟩
  · intro run key value hstaged
    simp only [Index.stage, Table.get_insert, Prod.mk.injEq] at hstaged
    split at hstaged
    · rename_i hplace
      cases hstaged
      rw [← request.1.record_key] at hplace
      refine .inr ⟨request, by simp, hopen, hplace.1, hplace.2, rfl, ?_⟩
      intro huntorn
      obtain ⟨howed, hlies⟩ := hwhole huntorn
      exact ⟨hlies, _, List.mem_append_right _ (List.mem_singleton_self _), howed⟩
    · refine (kept.staged run key value hstaged).imp_right ?_
      rintro ⟨first, hfirst, hearlier, hrun, hkey, hvalue, hlies⟩
      refine ⟨first, List.mem_append_left _ hfirst, hearlier, hrun, hkey, hvalue, ?_⟩
      intro huntorn
      exact ⟨(hlies huntorn).1.mono hgrown, howes (hlies huntorn).2⟩
  · refine List.rel_append (kept.members.imp ?_) (.cons hmember .nil)
    intro earlier member hearlier
    exact hearlier.mono hgrown howes

theorem ownedAnswer_congr {index other : Index} (h : index.runs = other.runs) (stored : Stored)
    (key : String) : ownedAnswer index stored key = ownedAnswer other stored key := by
  unfold ownedAnswer
  rw [h]

/-- One ordered step keeps what holds of the batch, if it repeats no failed record. -/
theorem StageKept.take (lawful : wire.Lawful) {start : Disk} {index : Index} {flushed : Bool}
    {done : List (Staged × Handle.Served Fault)} {staging : Staging Disk Index Appended IoError}
    {request : Staged × Handle.Served Fault} (hsettled : Settled wire index.runs start.synced)
    (hsynced : start.synced <+: start.file.bytes)
    (hleft : Unsettled index request →
      index.staged.get (request.1.record.run, hexOf request.1.record.key) =
        some request.1.record.value → Durable wire request.1.record start)
    (hrepeats : ∀ first ∈ done, Unsettled index first → Unsettled index request →
      request.1.record.Names first.1.record →
      flushed = true ∧ ∀ moved, first.2.fault ≠ .torn moved)
    (kept : StageKept wire start index flushed done staging) :
    StageKept wire start index flushed (done ++ [request])
      (staging.take (Handle.ordered (appendOnOwner wire) request)) := by
  have hstep := appendStep wire request.1 request.2.fault staging.file staging.state
  have howned := ownedAnswer_congr kept.runs request.1.record (hexOf request.1.key.bytes)
  generalize hjob : appendOnOwner wire request.1 request.2.fault staging.file staging.state =
    result at hstep
  cases hstep with
  | refused cause =>
    rw [Staging.take_error hjob]
    exact kept.answer (.refused cause)
  | owned answer hanswer hfault =>
    rw [Staging.take_ok hjob]
    refine kept.answer ?_
    by_cases hconflict : answer = .conflicting
    · rw [hconflict]
      exact .conflicting
    · rw [howned, ← request.1.record_key] at hanswer
      exact .durable answer (hsettled.durable hsynced hanswer hconflict)
  | repeated answer hopen hstaged hfault =>
    rw [Staging.take_ok hjob]
    refine kept.answer ?_
    rw [howned] at hopen
    unfold stagedAnswer at hstaged
    rw [Option.map_eq_some_iff] at hstaged
    obtain ⟨value, hvalue, rfl⟩ := hstaged
    split
    · rename_i hsame
      rw [hsame, ← request.1.record_key] at hvalue
      rcases kept.staged _ _ _ hvalue with hbefore | ⟨first, hfirst, hearlier, hrun, hkey, hbytes, hwhole⟩
      · exact .durable _ (hleft ⟨hopen, hfault⟩ hbefore)
      · have hnames : request.1.record.Names first.1.record := ⟨hrun, hexOf_inj hkey, hbytes⟩
        obtain ⟨hflushed, huntorn⟩ := hrepeats first hfirst hearlier ⟨hopen, hfault⟩ hnames
        obtain ⟨hlies, howes⟩ := hwhole huntorn
        exact .covered _ _ ⟨hrun.symm, hnames.2.1.symm, hbytes.symm⟩ hlies hflushed howes
    · exact .conflicting
  | torn write moved cause hopen hstaged hwrite hfault =>
    rw [Staging.take_error hjob]
    rw [howned] at hopen
    refine kept.write ⟨hopen, by rw [hfault]; simp⟩ (.refused cause) ?_
    intro huntorn
    exact absurd hfault (huntorn moved)
  | written write hopen hstaged hwrite hfault =>
    rw [Staging.take_ok hjob]
    rw [howned] at hopen
    have hlies := liesOn_write lawful hwrite kept.position
    refine kept.write ⟨hopen, by rw [hfault]; simp⟩ (.written _ hlies) ?_
    intro _
    exact ⟨rfl, hlies⟩

theorem Settled.folded {start : Disk} {bytes : Bytes} {flushed : Bool} {owes : Prop}
    {done : List (Staged × Handle.Served Fault)} {members : List (Member Index Appended IoError)}
    (hmembers : List.Forall₂ (fun request member =>
      MemberKept wire start bytes flushed owes request.1.record member.staged) done members) :
    ∀ {index : Index}, Settled wire index.runs bytes →
      Settled wire (members.foldl (Member.folded none) index).runs bytes := by
  induction hmembers with
  | nil =>
    intro index h
    exact h
  | @cons request member done members hkept _ ih =>
    intro index h
    rw [List.foldl_cons]
    refine ih ?_
    unfold Member.folded
    generalize member.staged = stage at hkept
    cases hkept with
    | refused | conflicting | durable | covered => exact h
    | written length hlies => exact h.insertStep hlies

namespace RunStore

structure Kept (wire : Wire) (store : RunStore) : Prop where
  settled : Settled wire store.state.runs store.file.synced
  synced : store.file.synced <+: store.file.file.bytes
  position : store.file.file.bytes.length ≤ store.file.file.position
  answers : ∀ answered ∈ store.answers, Acknowledged answered.2 →
    Durable wire answered.1.record store.file

theorem Kept.submit {store : RunStore} (kept : store.Kept wire) (request : Staged) :
    Kept wire (store.act wire (.submit request)) := by
  have hrefused : ∀ cause, (∀ answered ∈ store.answers ++ [(request, .error cause)],
      Acknowledged answered.2 → Durable wire answered.1.record store.file) := by
    intro cause answered hanswered hack
    rcases List.mem_append.mp hanswered with hbefore | hlast
    · exact kept.answers answered hbefore hack
    · rw [List.mem_singleton.mp hlast] at hack
      rcases hack with h | h
      all_goals cases h
  unfold act Handle.submit
  simp only []
  split
  · exact ⟨kept.settled, kept.synced, kept.position, hrefused _⟩
  · split
    · exact ⟨kept.settled, kept.synced, kept.position, kept.answers⟩
    · split
      · exact ⟨kept.settled, kept.synced, kept.position, kept.answers⟩
      · exact ⟨kept.settled, kept.synced, kept.position, hrefused _⟩

theorem Kept.stage (lawful : wire.Lawful) {store : RunStore} {served : List (Handle.Served Fault)}
    {flushed : Bool} {taken : List (Staged × Handle.Served Fault)} (kept : store.Kept wire)
    (hrepeats : store.RepeatsNoFailure wire (.batch served flushed))
    (htaken : taken <+: store.arrived served) :
    StageKept wire store.file store.state flushed taken
      ((taken.map (Handle.ordered (appendOnOwner wire))).foldl Staging.take
        ⟨store.file, store.state, [], 0⟩) := by
  obtain ⟨hleft, hpairs⟩ := hrepeats
  refine Staging.stage_invariant taken ?_ ?_
  · refine ⟨rfl, rfl, List.prefix_refl _, kept.position, ?_, .nil⟩
    intro run key value hstaged
    exact .inl hstaged
  · intro done request staging _ hdone hkept
    have hahead := hdone.trans htaken
    refine hkept.take lawful kept.settled kept.synced ?_ ?_
    · exact hleft request (hahead.subset (by simp))
    · have hbefore := hpairs.sublist hahead.sublist
      rw [List.pairwise_append] at hbefore
      intro first hfirst
      exact hbefore.2.2 first hfirst request (List.mem_singleton_self _)

theorem answer_durable {start disk : Disk} {bytes : Bytes} {flushed : Bool} {owes : Prop}
    {record : Stored} {member : Member Index Appended IoError} {flushFailure : Option IoError}
    (hkept : MemberKept wire start bytes flushed owes record member.staged)
    (hack : Acknowledged (Handle.published (member.answered flushFailure)))
    (hstart : Durable wire record start → Durable wire record disk)
    (hbytes : bytes <+: disk.file.bytes)
    (hcovered : flushed = true → owes → bytes <+: disk.synced)
    (hwritten : flushFailure = none → member.staged.owesFlush = true → bytes <+: disk.synced) :
    Durable wire record disk := by
  unfold Member.answered at hack
  generalize member.staged = stage at hkept hack hwritten
  cases hkept with
  | refused cause =>
    rcases hack with h | h
    all_goals cases h
  | conflicting =>
    rcases hack with h | h
    all_goals cases h
  | durable answer hdurable => exact hstart hdurable
  | covered answer stored hnames hlies hflushed howes =>
    exact ⟨stored, hnames, hlies.mono (hcovered hflushed howes), hlies.mono hbytes⟩
  | written length hlies =>
    cases flushFailure with
    | some cause =>
      rcases hack with h | h
      all_goals cases h
    | none => exact ⟨record, ⟨rfl, rfl, rfl⟩, hlies.mono (hwritten rfl rfl), hlies.mono hbytes⟩

theorem Kept.batch (lawful : wire.Lawful) {store : RunStore} {served : List (Handle.Served Fault)}
    {flushed : Bool} (kept : store.Kept wire)
    (hrepeats : store.RepeatsNoFailure wire (.batch served flushed)) :
    Kept wire (store.act wire (.batch served flushed)) := by
  obtain ⟨taken, htaken, outcome, hends, hbatch⟩ := Handle.batch_ends (appendOnOwner wire)
    Disk.syncAll flushRefusal store served flushed
  have hstage := kept.stage lawful hrepeats htaken
  change Kept wire (store.batch (appendOnOwner wire) Disk.syncAll flushRefusal served flushed)
  rw [hbatch]
  generalize (taken.map (Handle.ordered (appendOnOwner wire))).foldl Staging.take
    ⟨store.file, store.state, [], 0⟩ = staging at hends hstage
  have hpair : ∀ {request member}, (request, member) ∈ taken.zip staging.members →
      MemberKept wire store.file staging.file.file.bytes flushed (Owes staging.members)
        request.1.record member.staged := (List.forall₂_iff_zip.mp hstage.members).2
  have hruns : Settled wire staging.state.runs store.file.synced := by
    rw [hstage.runs]
    exact kept.settled
  have hunsynced : staging.file.synced <+: staging.file.file.bytes := by
    rw [hstage.synced]
    exact kept.synced.trans hstage.grown
  -- a batch whose flush failed, and one that owed none, leave the file without a sync
  have hquiet : ∀ flushFailure : Option IoError,
      (flushFailure ≠ none ∨ ∀ member ∈ staging.members, member.staged.owesFlush = false) →
      (flushed = true → ¬ Owes staging.members) →
      ∀ next : RunStore, next.file = staging.file →
      next.state = (staging.close flushFailure staging.file).state →
      next.answers = store.answers ++ (taken.map Prod.fst).zip
        ((staging.close flushFailure staging.file).answers.map Handle.published) →
      Kept wire next := by
    intro flushFailure hfold hnosync next hfile hstate hanswers
    have hsettled : next.state = staging.state := by
      rw [hstate, Staging.close, Member.foldl_folded hfold]
    refine ⟨?_, ?_, ?_, ?_⟩
    · rw [hsettled, hfile, hstage.synced]
      exact hruns
    · rw [hfile]
      exact hunsynced
    · rw [hfile]
      exact hstage.position
    · rw [hanswers, hfile]
      intro answered hanswered hack
      have hsame : store.file.synced <+: staging.file.synced :=
        ⟨[], by rw [List.append_nil, hstage.synced]⟩
      rcases List.mem_append.mp hanswered with hbefore | hnow
      · exact (kept.answers answered hbefore hack).mono hsame hstage.grown
      · obtain ⟨request, member, hin, rfl⟩ := Handle.mem_answers.mp hnow
        refine answer_durable (hpair hin) hack ?_ (List.prefix_refl _) ?_ ?_
        · intro hdurable
          exact hdurable.mono hsame hstage.grown
        · intro hflushed howes
          exact absurd howes (hnosync hflushed)
        · intro hnone hmine
          rw [hfold.resolve_left (fun hne => hne hnone) member (List.of_mem_zip hin).2] at hmine
          cases hmine
  cases hends with
  | synced hflushed howes =>
    have hgrown : store.file.synced <+: staging.file.file.bytes :=
      kept.synced.trans hstage.grown
    refine ⟨Settled.folded hstage.members (hruns.mono hgrown), List.prefix_refl _,
      hstage.position, ?_⟩
    intro answered hanswered hack
    rcases List.mem_append.mp hanswered with hbefore | hnow
    · exact (kept.answers answered hbefore hack).mono hgrown hstage.grown
    · obtain ⟨request, member, hin, rfl⟩ := Handle.mem_answers.mp hnow
      refine answer_durable (hpair hin) hack ?_ (List.prefix_refl _) ?_ ?_
      · intro hdurable
        exact hdurable.mono hgrown hstage.grown
      · intro _ _
        exact List.prefix_refl _
      · intro _ _
        exact List.prefix_refl _
  | failed hflushed _ =>
    refine hquiet (some flushRefusal) (.inl (by simp)) ?_ _ rfl rfl rfl
    intro htrue
    rw [hflushed] at htrue
    cases htrue
  | settled howes =>
    refine hquiet none (.inr howes) ?_ _ rfl rfl rfl
    rintro - ⟨member, hmember, hmine⟩
    rw [howes member hmember] at hmine
    cases hmine

theorem kept_opened (lawful : wire.Lawful) {bytes : Bytes} {store : RunStore}
    (h : opened wire bytes bytes = .ok store) : store.Kept wire := by
  unfold opened openImpl at h
  cases hlog : (format wire).openLog (foldStored wire) noRecords bytes with
  | error refusal =>
    simp only [hlog] at h
    cases h
  | ok pair =>
    obtain ⟨log, file⟩ := pair
    simp only [hlog] at h
    cases h
    obtain ⟨start, frames, hchain, hstart, hbytes, rfl, hposition⟩ :=
      Format.openLog_sound (format_lawful lawful) hlog
    have hsynced : (if file.bytes = bytes then bytes else file.bytes) = file.bytes := by
      split
      · rename_i hsame
        exact hsame.symm
      · rfl
    refine ⟨?_, ?_, hposition, ?_⟩
    · simp only [Handle.spawn, hsynced]
      intro run key held hheld
      rcases stepOf_foldl frames hheld with hnone | ⟨read, hread, hrun, hkey, hvalue⟩
      · cases hnone
      · obtain ⟨before, after, hsplit⟩ := List.append_of_mem hread
        refine ⟨read.record, hrun, hkey, hvalue, read.frame,
          start ++ framesBytes (before.map Framed.frame),
          framesBytes (after.map Framed.frame), hchain.decode read hread, ?_⟩
        rw [hbytes, hsplit]
        simp [framesBytes]
    · simp only [Handle.spawn, hsynced]
      exact List.prefix_refl _
    · intro answered hanswered
      cases hanswered

end RunStore

namespace PlainWire

open RunStore

def recordedOnce : List Action :=
  [.submit (request 1 "a" 1 [7]), .batch [served] true]

def repeatedInFailedBatch : List Action :=
  [.submit (request 1 "a" 1 [7]), .submit (request 1 "a" 1 [7]), .batch [served, served] false]

end PlainWire

end LogicalWorks.Task.Store
