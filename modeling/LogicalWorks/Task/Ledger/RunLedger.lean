import LogicalWorks.Task.Ledger.Controls

/-! The ledger behind its storage owner: callers submit charges, the owner's thread takes them
in batches, and each ordered charge syncs its own entry.  What an accepted charge leaves on
the file, and what a refused one leaves of the handle. -/
namespace LogicalWorks.Task.Ledger

open Journal Owner.Batch

variable {wire : Wire}

structure Asked where
  charge : Charge
  ceilings : Ceilings
  deriving DecidableEq, Repr

abbrev RunLedger := Handle PositionedFile Index Asked Control IoError

namespace RunLedger

/-- The ordered step of a submitted charge, on a device that serves it. -/
def job (wire : Wire) (asked : Asked) (_ : Unit) : Job PositionedFile Index Control IoError :=
  chargeOnOwner wire asked.charge asked.ceilings

def created (wire : Wire) : RunLedger :=
  .spawn ⟨(format wire).fileOf [], ((format wire).fileOf []).length⟩ (indexFor wire [])

/-- What a party does: a caller submits a charge, or the owner's thread runs a batch. -/
inductive Action where
  | submit (asked : Asked)
  | batch (served : List (Handle.Served Unit)) (flushed : Bool)
  deriving DecidableEq, Repr

def act (wire : Wire) (ledger : RunLedger) : Action → RunLedger
  | .submit asked => ledger.submit asked
  | .batch served flushed => ledger.batch (job wire) id .flush served flushed

def Step (wire : Wire) (ledger : RunLedger) (action : Action) (next : RunLedger) : Prop :=
  ledger.act wire action = next

def acceptedCount (answers : List (Asked × Except (SubmitError IoError) Control)) : Nat :=
  answers.countP fun answered => answered.2.isOk

structure Live (wire : Wire) (frames : List (Framed Entry)) (ledger : RunLedger) : Prop where
  file : ledger.file = ⟨(format wire).fileOf frames, ((format wire).fileOf frames).length⟩
  chained : (format wire).Chained (format wire).genesis frames
  index : ledger.state = indexFor wire frames
  accepted : acceptedCount ledger.answers = frames.length

end RunLedger

structure StageCharged (wire : Wire) (frames : List (Framed Entry)) (done : List (Asked × Handle.Served Unit))
    (staging : Staging PositionedFile Index Control IoError) (news : List (Framed Entry)) : Prop where
  file : staging.file = ⟨(format wire).fileOf (frames ++ news),
    ((format wire).fileOf (frames ++ news)).length⟩
  chained : (format wire).Chained (format wire).genesis (frames ++ news)
  index : staging.state = indexFor wire (frames ++ news)
  count : done.length = staging.members.length
  quiet : ∀ member ∈ staging.members, member.staged.owesFlush = false
  accepted : staging.members.countP (fun member => (member.answered none).isOk) = news.length

theorem indexFor_snoc (frames : List (Framed Entry)) (read : Framed Entry) :
    indexFor wire (frames ++ [read]) =
      ⟨fold (indexFor wire frames).runs read.record,
        (indexFor wire frames).committed + read.frame.bytes.length, read.frame.head⟩ := by
  simp [indexFor, indexOf, Format.replayOf, foldEntry, framesBytes, Nat.add_assoc]

theorem prepareEntry_frames (lawful : wire.Lawful) {frames : List (Framed Entry)} {entry : Entry}
    {write : Write} (hchain : (format wire).Chained (format wire).genesis frames)
    (hwrite : prepareEntry wire ((format wire).fileOf frames).length (indexFor wire frames) entry =
      .ok write) :
    ∃ read : Framed Entry, read.record = entry ∧
      (format wire).Chained (format wire).genesis (frames ++ [read]) ∧
      (⟨(format wire).fileOf frames, ((format wire).fileOf frames).length⟩ :
          PositionedFile).writeAll write.framed =
        ⟨(format wire).fileOf (frames ++ [read]), ((format wire).fileOf (frames ++ [read])).length⟩ ∧
      (⟨fold (indexFor wire frames).runs entry, write.next, write.head⟩ : Index) =
        indexFor wire (frames ++ [read]) := by
  obtain ⟨read, hrecord, hframed, hhead, hone, hnext, -, -⟩ := prepareEntry_ok lawful hwrite
  refine ⟨read, hrecord, ?_, ?_, ?_⟩
  · rw [Format.chained_append]
    exact ⟨hchain, hone⟩
  · rw [PositionedFile.writeAll_at_end rfl, Format.fileOf_snoc, hframed, List.length_append]
  · rw [indexFor_snoc, hrecord, hnext, hhead, hframed]

theorem StageCharged.take (lawful : wire.Lawful) {frames news : List (Framed Entry)}
    {done : List (Asked × Handle.Served Unit)}
    {staging : Staging PositionedFile Index Control IoError} {request : Asked × Handle.Served Unit}
    (charged : StageCharged wire frames done staging news) :
    ∃ more, StageCharged wire frames (done ++ [request])
      (staging.take (Handle.ordered (RunLedger.job wire) request)) (news ++ more) := by
  have hstep := chargeStep wire request.1.charge request.1.ceilings staging.file staging.state
  have hanswered : ∀ (cause : IoError) (bytes : Nat), ∃ more,
      StageCharged wire frames (done ++ [request]) ⟨staging.file, staging.state,
        staging.members ++ [⟨.settled (.error cause), request.2.abandoned⟩], bytes⟩
        (news ++ more) := by
    intro cause bytes
    refine ⟨[], ?_⟩
    rw [List.append_nil]
    refine ⟨charged.file, charged.chained, charged.index, by simp [charged.count], ?_, ?_⟩
    · intro member hmember
      rcases List.mem_append.mp hmember with hbefore | hlast
      · exact charged.quiet member hbefore
      · rw [List.mem_singleton.mp hlast]
        rfl
    · rw [List.countP_append, charged.accepted]
      rfl
  generalize hjob : chargeOnOwner wire request.1.charge request.1.ceilings staging.file
    staging.state = result at hstep
  cases hstep with
  | refused refusal _ =>
    rw [Staging.take_error hjob]
    exact hanswered _ _
  | stopped entry next cause _ _ =>
    rw [Staging.take_error hjob]
    exact hanswered _ _
  | charged entry next write hdecide hwrite =>
    rw [Staging.take_ok hjob]
    rw [charged.file, charged.index] at hwrite
    obtain ⟨read, -, hchain, hfile, hindex⟩ :=
      prepareEntry_frames lawful charged.chained hwrite
    refine ⟨[read], ?_, ?_, ?_, by simp [charged.count], ?_, ?_⟩
    · rw [← List.append_assoc, charged.file]
      exact hfile
    · rw [← List.append_assoc]
      exact hchain
    · rw [← List.append_assoc, charged.index]
      exact hindex
    · intro member hmember
      rcases List.mem_append.mp hmember with hbefore | hlast
      · exact charged.quiet member hbefore
      · rw [List.mem_singleton.mp hlast]
        rfl
    · rw [List.countP_append, charged.accepted, List.length_append]
      rfl

namespace RunLedger

theorem acceptedCount_append (left right : List (Asked × Except (SubmitError IoError) Control)) :
    acceptedCount (left ++ right) = acceptedCount left + acceptedCount right :=
  List.countP_append

theorem Live.submit {frames : List (Framed Entry)} {ledger : RunLedger}
    (live : Live wire frames ledger) (asked : Asked) :
    Live wire frames (ledger.act wire (.submit asked)) := by
  have hrefused : ∀ cause, acceptedCount (ledger.answers ++ [(asked, .error cause)]) =
      frames.length := by
    intro cause
    rw [acceptedCount_append, live.accepted]
    rfl
  unfold act Handle.submit
  simp only []
  split
  · exact ⟨live.file, live.chained, live.index, hrefused _⟩
  · split
    · exact ⟨live.file, live.chained, live.index, live.accepted⟩
    · split
      · exact ⟨live.file, live.chained, live.index, live.accepted⟩
      · exact ⟨live.file, live.chained, live.index, hrefused _⟩

theorem Live.batch (lawful : wire.Lawful) {frames : List (Framed Entry)} {ledger : RunLedger}
    (live : Live wire frames ledger) (served : List (Handle.Served Unit)) (flushed : Bool) :
    ∃ news, Live wire (frames ++ news) (ledger.act wire (.batch served flushed)) := by
  obtain ⟨taken, htaken, outcome, hends, hbatch⟩ := Handle.batch_ends (job wire) id IoError.flush
    ledger served flushed
  have hstage : ∃ news, StageCharged wire frames taken
      ((taken.map (Handle.ordered (job wire))).foldl Staging.take
        ⟨ledger.file, ledger.state, [], 0⟩) news := by
    refine Staging.stage_invariant (I := fun done staging =>
      ∃ news, StageCharged wire frames done staging news) taken ?_ ?_
    · refine ⟨[], ?_, ?_, ?_, rfl, by simp, rfl⟩
      · rw [List.append_nil]
        exact live.file
      · rw [List.append_nil]
        exact live.chained
      · rw [List.append_nil]
        exact live.index
    · rintro done request staging - - ⟨news, hcharged⟩
      obtain ⟨more, hnext⟩ := hcharged.take lawful
      exact ⟨news ++ more, hnext⟩
  obtain ⟨news, hstage⟩ := hstage
  change ∃ news, Live wire (frames ++ news) (ledger.batch (job wire) id .flush served flushed)
  rw [hbatch]
  generalize (taken.map (Handle.ordered (job wire))).foldl Staging.take
    ⟨ledger.file, ledger.state, [], 0⟩ = staging at hends hstage
  have hanswers : ∀ file, acceptedCount ((taken.map Prod.fst).zip
      ((staging.close none file).answers.map Handle.published)) = news.length := by
    intro file
    have hsnd := @List.map_snd_zip _ _ (taken.map Prod.fst)
      ((staging.close none file).answers.map Handle.published)
      (by simp [Staging.close, hstage.count])
    have hcount := congrArg (List.countP fun answer => answer.isOk) hsnd
    rw [List.countP_map, List.countP_map, Staging.close, List.countP_map] at hcount
    rw [← hstage.accepted]
    refine hcount.trans ?_
    refine List.countP_congr ?_
    intro member _
    simp [Handle.isOk_published]
  cases hends with
  | synced _ howes =>
    obtain ⟨member, hmember, hmine⟩ := howes
    rw [hstage.quiet member hmember] at hmine
    cases hmine
  | failed _ howes =>
    obtain ⟨member, hmember, hmine⟩ := howes
    rw [hstage.quiet member hmember] at hmine
    cases hmine
  | settled howes =>
    refine ⟨news, hstage.file, hstage.chained, ?_, ?_⟩
    · simp only [Staging.close]
      rw [Member.foldl_folded (.inr howes)]
      exact hstage.index
    · rw [acceptedCount_append, live.accepted, hanswers, List.length_append]

theorem live_created (wire : Wire) : Live wire [] (created wire) :=
  ⟨rfl, trivial, rfl, rfl⟩

theorem live_of_run (lawful : wire.Lawful) {final : RunLedger} {trace : List (RunLedger × Action)}
    (run : Run (Step wire) (created wire) trace final) : ∃ frames, Live wire frames final := by
  refine run.always (I := fun ledger => ∃ frames, Live wire frames ledger)
    ⟨[], live_created wire⟩ ?_
  rintro ledger action next ⟨frames, hlive⟩ hstep
  rw [← hstep]
  cases action with
  | submit asked => exact ⟨frames, hlive.submit asked⟩
  | batch served flushed =>
    obtain ⟨news, hnext⟩ := hlive.batch lawful served flushed
    exact ⟨frames ++ news, hnext⟩

theorem Live.replay_limit (lawful : wire.Lawful) {frames : List (Framed Entry)}
    {ledger : RunLedger} (live : Live wire frames ledger)
    (hmany : maxLedgerRecordsPerRun < frames.length) :
    replay wire ⟨ledger.file.bytes, 0⟩ =
      .error (.limit .records (maxLedgerRecordsPerRun + 1) maxLedgerRecordsPerRun) := by
  have hbytes : (⟨ledger.file.bytes, 0⟩ : PositionedFile).bytes =
      (format wire).fileOf frames ++ [] := by rw [live.file, List.append_nil]
  unfold replay
  rw [Format.replayLog_limit (format_lawful lawful) live.chained hmany hbytes]
  rfl

/-- A file the ledger wrote is replayed exactly when it holds no more entries, over all its
runs, than one run may have. -/
theorem replay_iff (lawful : wire.Lawful) {final : RunLedger} {trace : List (RunLedger × Action)}
    (run : Run (Step wire) (created wire) trace final) :
    (∃ index file, replay wire ⟨final.file.bytes, 0⟩ = .ok (index, file)) ↔
      acceptedCount final.answers ≤ maxLedgerRecordsPerRun := by
  obtain ⟨frames, hlive⟩ := live_of_run lawful run
  rw [hlive.accepted]
  constructor
  · rintro ⟨index, file, hreplay⟩
    by_contra hmany
    rw [hlive.replay_limit lawful (by omega)] at hreplay
    cases hreplay
  · intro hfew
    refine ⟨_, _, replay_fileOf lawful hlive.chained hfew ?_⟩
    rw [hlive.file]

end RunLedger

theorem RunLedger.act_charged {ledger : RunLedger} {asked : Asked} {entry : Entry}
    {next : Control} {write : Write} (hidle : Handle.Idle ledger)
    (hdecide : decideUnder ledger.state asked.charge asked.ceilings = .ok (entry, next))
    (hwrite : prepareEntry wire ledger.file.len ledger.state entry = .ok write) :
    (ledger.act wire (.submit asked)).act wire (.batch [⟨(), false⟩] true) =
      { ledger with
        file := ledger.file.writeAll write.framed
        state := ⟨fold ledger.state.runs entry, write.next, write.head⟩
        answers := ledger.answers ++ [(asked, .ok next)] } := by
  have hjob : RunLedger.job wire asked () ledger.file ledger.state = (.ok (.committed next),
      ledger.file.writeAll write.framed, ⟨fold ledger.state.runs entry, write.next, write.head⟩) := by
    unfold RunLedger.job chargeOnOwner writeEntry
    simp only [hdecide, hwrite]
  have hnext := Handle.submit_batch hidle (RunLedger.job wire) id IoError.flush asked
    (⟨(), false⟩ : Handle.Served Unit) true (runBatch_committed hjob)
  change (Handle.submit ledger asked).batch (RunLedger.job wire) id .flush [⟨(), false⟩] true = _
  rw [hnext]
  obtain ⟨hpending, -, hpoisoned⟩ := hidle
  cases ledger
  simp only [] at hpending hpoisoned
  rw [hpending, hpoisoned]
  rfl

theorem RunLedger.Live.charge (lawful : wire.Lawful) {frames : List (Framed Entry)}
    {ledger : RunLedger} {asked : Asked} {entry : Entry} {next : Control} {write : Write}
    (live : RunLedger.Live wire frames ledger) (hidle : Handle.Idle ledger)
    (hdecide : decideUnder ledger.state asked.charge asked.ceilings = .ok (entry, next))
    (hwrite : prepareEntry wire ledger.state.committed ledger.state entry = .ok write) :
    ∃ after read, (ledger.act wire (.submit asked)).act wire (.batch [⟨(), false⟩] true) = after ∧
      RunLedger.Live wire (frames ++ [read]) after ∧ Handle.Idle after ∧
      after.state = ⟨fold ledger.state.runs entry, write.next, write.head⟩ := by
  have hlen : ledger.file.len = ledger.state.committed := by
    rw [live.file, live.index, PositionedFile.len, Format.length_fileOf]
    rfl
  rw [← hlen] at hwrite
  have hframes := hwrite
  rw [live.index, live.file] at hframes
  obtain ⟨read, -, hchain, hfile, hindex⟩ := prepareEntry_frames lawful live.chained hframes
  refine ⟨_, read, RunLedger.act_charged hidle hdecide hwrite, ⟨?_, hchain, ?_, ?_⟩, ?_, rfl⟩
  · rw [live.file]
    exact hfile
  · rw [live.index]
    exact hindex
  · rw [RunLedger.acceptedCount_append, live.accepted, List.length_append]
    rfl
  · exact hidle

namespace PlainWire

open RunLedger StreamCodec

def again : Asked := ⟨attempt 1 "a", wide⟩

def attempts (count : Nat) : List RunLedger.Action :=
  (List.replicate count [RunLedger.Action.submit again, .batch [⟨(), false⟩] true]).flatten

theorem attempts_succ (count : Nat) : (attempts (count + 1)).foldl (act plain) (created plain) =
    (((attempts count).foldl (act plain) (created plain)).act plain (.submit again)).act plain
      (.batch [⟨(), false⟩] true) := by
  simp [attempts, List.replicate_succ']

def chargedControl (count : Nat) : Control :=
  ⟨"a", UInt64.ofNat count, UInt64.ofNat count, 0, []⟩

def chargedEntry (count : Nat) : Entry :=
  ⟨1, "a", UInt64.ofNat count, UInt64.ofNat count, 0, none⟩

theorem decide_again {index : Index} {count : Nat} (hcount : count ≤ 65536)
    (hcontrol : (index.runs.get 1).getD (Control.fresh "a") = chargedControl count) :
    decideUnder index again.charge again.ceilings =
      .ok (chargedEntry (count + 1), chargedControl (count + 1)) := by
  have hadd : saturatingAdd (UInt64.ofNat count) 1 = UInt64.ofNat (count + 1) := by
    apply UInt64.toNat_inj.mp
    rw [toNat_saturatingAdd, UInt64.toNat_ofNat', UInt64.toNat_ofNat']
    change min (count % 2 ^ 64 + 1) u64Max = (count + 1) % 2 ^ 64
    unfold u64Max
    omega
  have hroom : UInt64.ofNat (count + 1) ≤ 1000000 := by
    rw [UInt64.le_iff_toNat_le, UInt64.toNat_ofNat']
    change (count + 1) % 2 ^ 64 ≤ 1000000
    omega
  have hdecide := @decideUnder_resume _ again.charge again.ceilings _
    hcontrol rfl rfl (by rw [chargedControl, hadd]; exact hroom)
    (by rw [chargedControl]; exact hadd ▸ hroom)
  rw [hdecide]
  simp only [chargedControl, again, attempt, hadd]
  rfl

theorem length_number_le {value : Nat} (h : value < 2 ^ 64) : (number.encode value).length ≤ 17 := by
  have hlog : value.log2 < 64 := by
    rcases Nat.eq_zero_or_pos value with rfl | hpos
    · decide
    · exact (Nat.log2_lt hpos.ne').mpr h
  change (List.replicate (value.log2 / 8 + 1) 1 ++ [0] ++
    Bytes.littleEndian (value.log2 / 8 + 1) value).length ≤ 17
  simp only [List.length_append, List.length_replicate, List.length_singleton,
    Bytes.length_littleEndian]
  omega

theorem length_chargedEntry (count : Nat) :
    0 < (entry.encode (chargedEntry count)).length ∧
      (entry.encode (chargedEntry count)).length ≤ 68 := by
  have hcounter := length_number_le (UInt64.ofNat count).toNat_lt
  have hencode : entry.encode (chargedEntry count) = number.encode 1 ++ (text.encode "a" ++
      (number.encode (UInt64.ofNat count).toNat ++ (number.encode (UInt64.ofNat count).toNat ++
        (counter.encode 0 ++ ticket.encode none)))) := rfl
  have hends : (number.encode 1).length = 3 ∧ (text.encode "a").length = 5 ∧
      (counter.encode 0 ++ ticket.encode none).length = 4 := by decide +kernel
  rw [hencode]
  simp only [List.length_append] at hends ⊢
  omega

theorem attempts_accepted (count : Nat) : count ≤ maxLedgerRecordsPerRun + 1 →
    ∃ frames, Live plain frames ((attempts count).foldl (act plain) (created plain)) ∧
      Handle.Idle ((attempts count).foldl (act plain) (created plain)) ∧ frames.length = count ∧
      (((attempts count).foldl (act plain) (created plain)).state.runs.get 1).getD
        (Control.fresh "a") = chargedControl count ∧
      ((attempts count).foldl (act plain) (created plain)).state.committed ≤ 17 + 200 * count := by
  induction count with
  | zero =>
    intro _
    exact ⟨[], live_created plain, ⟨rfl, rfl, rfl⟩, rfl, rfl, by decide +kernel⟩
  | succ count ih =>
    intro hcount
    obtain ⟨frames, hlive, hidle, hframes, hcontrol, hcommitted⟩ := ih (by omega)
    rw [attempts_succ]
    generalize (attempts count).foldl (act plain) (created plain) = ledger at *
    have hdecide := decide_again (by unfold maxLedgerRecordsPerRun at hcount; omega) hcontrol
    have hlength := length_chargedEntry (count + 1)
    have hfits : (⟨entry.encode (chargedEntry (count + 1)),
        (chargedEntry (count + 1)).headFrom plain ledger.state.tail⟩ : Frame).Fits
          maxLedgerRecordBytes := by
      refine ⟨isPossibleLength_iff.mpr ⟨?_, ?_⟩, ?_⟩
      · exact hlength.1
      · simp only [maxLedgerRecordBytes]
        omega
      · simp only []
        omega
    have hroom : ledger.state.committed +
        framedLen (entry.encode (chargedEntry (count + 1))).length ≤ u64Max := by
      unfold framedLen headBytes lengthBytes u64Max
      unfold maxLedgerRecordsPerRun at hcount
      omega
    have hwrite := prepareEntry_of_fits rfl hfits hroom
    obtain ⟨after, read, hafter, hnext, hstill, hstate⟩ :=
      hlive.charge lawful hidle hdecide hwrite
    rw [hafter]
    refine ⟨frames ++ [read], hnext, hstill, by simp [hframes], ?_, ?_⟩
    · rw [hstate]
      unfold fold
      rw [Table.get_insert]
      change ((ledger.state.runs.get 1).getD (Control.fresh "a")).assign _ = _
      rw [hcontrol]
      rfl
    · rw [hstate]
      simp only [framedLen, headBytes, lengthBytes]
      omega

/-- A ledger that accepted one charge more than a replay reads is not opened again. -/
theorem full_ledger_not_replayed :
    acceptedCount ((attempts (maxLedgerRecordsPerRun + 1)).foldl (act plain)
        (created plain)).answers = maxLedgerRecordsPerRun + 1 ∧
      replay plain ⟨((attempts (maxLedgerRecordsPerRun + 1)).foldl (act plain)
          (created plain)).file.bytes, 0⟩ =
        .error (.limit .records (maxLedgerRecordsPerRun + 1) maxLedgerRecordsPerRun) := by
  obtain ⟨frames, hlive, -, hframes, -⟩ := attempts_accepted (maxLedgerRecordsPerRun + 1)
    (Nat.le_refl _)
  exact ⟨hlive.accepted.trans hframes, hlive.replay_limit lawful (by omega)⟩

theorem replay_attempt : ∃ index file,
    replay plain ⟨((attempts 1).foldl (act plain) (created plain)).file.bytes, 0⟩ =
      .ok (index, file) := by
  have hrun : Run (RunLedger.Step plain) (created plain) (traceOf (act plain) (created plain) (attempts 1))
      ((attempts 1).foldl (act plain) (created plain)) := Run.ofActions _ _ _
  exact (replay_iff lawful hrun).mpr (by decide +kernel)

end PlainWire

end LogicalWorks.Task.Ledger

/-! What a charge the decision refused leaves of the handle it was submitted on, as the callers
that come after it see it. -/
namespace LogicalWorks.Task.Ledger

open Owner.Batch

variable {wire : Wire}

inductive CommitError where
  | store (cause : SubmitError IoError)
  | refused (cause : LeaseRefusal)
  deriving DecidableEq, Repr

/-- Tell a logical refusal from a device one, on the way out of the owner. -/
def classify : SubmitError IoError → CommitError
  | .device (.refused refusal) => .refused refusal
  | cause => .store cause

namespace RunLedger

def answersTo (wire : Wire) (ledger : RunLedger) (actions : List Action) :
    List (Asked × Except CommitError Control) :=
  (actions.foldl (act wire) { ledger with answers := [] }).answers.map fun answered =>
    (answered.1, answered.2.mapError classify)

def takeHead (wire : Wire) (ledger : RunLedger) (served : Handle.Served Unit) : RunLedger :=
  ledger.act wire (.batch [served] true)

/-- The same handle, had the charge at the head of its ring never been submitted. -/
def spared (ledger : RunLedger) : RunLedger := { ledger with pending := ledger.pending.tail }

/-- A refused charge is answered, moves neither the file nor the index, and poisons the
handle. -/
theorem takeHead_refused {ledger : RunLedger} {asked : Asked} {rest : List Asked}
    {refusal : LeaseRefusal} (hhead : ledger.pending = asked :: rest)
    (hrefused : decideUnder ledger.state asked.charge asked.ceilings = .error refusal)
    (served : Handle.Served Unit) :
    ∃ next, (Handle.promoteRings ledger.pending ledger.waiting).1 = asked :: next ∧
      Handle.promoteRings next (Handle.promoteRings ledger.pending ledger.waiting).2 =
        Handle.promoteRings rest ledger.waiting ∧
      ledger.takeHead wire served =
        { file := ledger.file
          state := ledger.state
          pending := next
          waiting := (Handle.promoteRings ledger.pending ledger.waiting).2
          poisoned := true
          answers := ledger.answers ++ [(asked, .error (.device (.refused refusal)))] } := by
  obtain ⟨next, hnext, hsame⟩ := Handle.promoteRings_cons asked ledger.waiting rest
  rw [← hhead] at hnext hsame
  refine ⟨next, hnext, hsame, ?_⟩
  have hjob : job wire asked () ledger.file ledger.state =
      (.error (.refused refusal), ledger.file, ledger.state) := by
    unfold job chargeOnOwner
    simp only [hrefused]
  have hbatch := @Handle.batch_head _ _ _ _ _ _ ledger _ _ hnext (job wire) id IoError.flush
    served true _ (runBatch_error hjob)
  rw [Bool.or_true] at hbatch
  exact hbatch

structure Alike (left right : RunLedger) : Prop where
  left_poisoned : left.poisoned = true
  right_poisoned : right.poisoned = true
  file : left.file = right.file
  state : left.state = right.state
  rings : Handle.promoteRings left.pending left.waiting =
    Handle.promoteRings right.pending right.waiting
  answers : left.answers = right.answers

theorem submit_poisoned {ledger : RunLedger} (h : ledger.poisoned = true) (asked : Asked) :
    ledger.act wire (.submit asked) =
      { ledger with answers := ledger.answers ++ [(asked, Except.error .poisoned)] } := by
  simp only [act, Handle.submit, h, if_true]

theorem Alike.act {left right : RunLedger} (alike : Alike left right) (action : Action) :
    Alike (left.act wire action) (right.act wire action) := by
  cases action with
  | submit asked =>
    rw [submit_poisoned alike.left_poisoned, submit_poisoned alike.right_poisoned]
    refine ⟨alike.left_poisoned, alike.right_poisoned, alike.file, alike.state, alike.rings, ?_⟩
    rw [alike.answers]
  | batch served flushed =>
    have hpromoted : left.promote = right.promote := by
      simp only [Handle.promote, alike.file, alike.state, alike.rings, alike.answers,
        alike.left_poisoned, alike.right_poisoned]
    have hsame : left.act wire (.batch served flushed) =
        right.act wire (.batch served flushed) := by
      simp only [RunLedger.act, Handle.batch, Handle.arrived, hpromoted, alike.file, alike.state,
        alike.answers, alike.left_poisoned, alike.right_poisoned]
    have hpoisoned : (right.act wire (.batch served flushed)).poisoned = true := by
      simp only [RunLedger.act, Handle.batch, alike.right_poisoned, Bool.true_or]
    rw [hsame]
    exact ⟨hpoisoned, hpoisoned, rfl, rfl, rfl, rfl⟩

theorem Alike.foldl {left right : RunLedger} (alike : Alike left right)
    (actions : List Action) :
    Alike (actions.foldl (RunLedger.act wire) left) (actions.foldl (RunLedger.act wire) right) := by
  induction actions generalizing left right with
  | nil => exact alike
  | cons action rest ih => exact ih (alike.act action)

/-- Every later charge is answered as it would have been without the refused one exactly
when the handle was poisoned before that was decided. -/
theorem refusal_unseen_iff {ledger : RunLedger} {asked : Asked} {rest : List Asked}
    {refusal : LeaseRefusal} {served : Handle.Served Unit} (hhead : ledger.pending = asked :: rest)
    (hrefused : decideUnder ledger.state asked.charge asked.ceilings = .error refusal) :
    (∀ actions, answersTo wire (ledger.takeHead wire served) actions =
        answersTo wire ledger.spared actions) ↔ ledger.poisoned = true := by
  obtain ⟨next, -, hsame, htaken⟩ := @takeHead_refused wire _ _ _ _ hhead hrefused served
  constructor
  · intro hunseen
    by_contra hclean
    have hlater := congrArg (List.map Prod.snd) (hunseen [.submit asked])
    have hpoisoned : (answersTo wire (ledger.takeHead wire served) [.submit asked]).map Prod.snd =
        [.error (.store .poisoned)] := by
      rw [htaken]
      rfl
    rw [hpoisoned] at hlater
    -- a handle that is not poisoned never answers so
    unfold answersTo at hlater
    simp only [List.foldl_cons, List.foldl_nil, act, Handle.submit, spared, if_neg hclean] at hlater
    split at hlater
    · cases hlater
    · split at hlater
      · cases hlater
      · cases hlater
  · intro hpoisoned actions
    have halike : Alike { ledger.takeHead wire served with answers := [] }
        { ledger.spared with answers := [] } := by
      rw [htaken]
      refine ⟨rfl, hpoisoned, rfl, rfl, ?_, rfl⟩
      simp only [spared, hhead, List.tail_cons] at hsame ⊢
      exact hsame
    unfold answersTo
    rw [(halike.foldl actions).answers]

end RunLedger

namespace PlainWire

open RunLedger

/-- The tenant of another ledger asks for a run it does not own. -/
def foreign : Asked := ⟨attempt 1 "b", wide⟩

/-- Run 1 charged once by its owner, and the foreign charge at the head of the ring. -/
def refusedNext : List RunLedger.Action := attempts 1 ++ [.submit foreign]

/-- Two foreign charges: the first has poisoned the handle, the second is in its ring. -/
def poisonedNext : List RunLedger.Action :=
  attempts 1 ++ [.submit foreign, .submit foreign, .batch [⟨(), false⟩] true]

theorem refusal_unseen_poisoned :
    answersTo plain ((poisonedNext.foldl (act plain) (created plain)).takeHead plain ⟨(), false⟩)
        [.submit again, .batch [⟨(), false⟩] true] =
      answersTo plain (poisonedNext.foldl (act plain) (created plain)).spared
        [.submit again, .batch [⟨(), false⟩] true] := by
  have hhead : (poisonedNext.foldl (act plain) (created plain)).pending = [foreign] := by
    decide +kernel
  have hrefused : decideUnder (poisonedNext.foldl (act plain) (created plain)).state
      foreign.charge foreign.ceilings = .error (.foreignTenant "a" "b") := by decide +kernel
  exact (refusal_unseen_iff hhead hrefused).mpr (by decide +kernel) _

/-- The owner's next charge is turned away, where it would have been admitted. -/
theorem refusal_seen :
    (refusedNext.foldl (act plain) (created plain)).pending = [foreign] ∧
      decideUnder (refusedNext.foldl (act plain) (created plain)).state foreign.charge
        foreign.ceilings = .error (.foreignTenant "a" "b") ∧
      answersTo plain ((refusedNext.foldl (act plain) (created plain)).takeHead plain ⟨(), false⟩)
        [.submit again, .batch [⟨(), false⟩] true] = [(again, .error (.store .poisoned))] ∧
      answersTo plain (refusedNext.foldl (act plain) (created plain)).spared
        [.submit again, .batch [⟨(), false⟩] true] = [(again, .ok (chargedControl 2))] := by
  decide +kernel

end PlainWire

end LogicalWorks.Task.Ledger
