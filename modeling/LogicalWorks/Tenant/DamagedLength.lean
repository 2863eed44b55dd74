import LogicalWorks.Tenant.Overwrite

/-! A store whose frames are whole but for one length prefix, raised to another allowed
length.  What an open makes of it depends on where it starts to read, and on whether the
raised frame still ends inside the file. -/
namespace LogicalWorks.Tenant

open Journal LogicalWorks.Task

section

variable (wire : Wire)

def behindLength (previous : Digest) (stored : Stored) (after : List Stored) : Bytes :=
  archived wire stored ++ ((frameBehind wire previous stored).head.bytes ++
    layout wire (frameBehind wire previous stored).head after)

def underLength (before : List Stored) (stored : Stored) (after : List Stored)
    (length : UInt32) : Bytes :=
  fileOf wire before ++
    (Bytes.u32BE length ++ behindLength wire (indexFor wire before).tail stored after)

def WrongLengthShows (previous : Digest) (behind : Bytes) (length : Nat) : Prop :=
  length + headBytes ≤ behind.length → ∀ read,
    wire.fromBytes (behind.take length) = some read →
      read.headFrom wire previous (behind.take length) ≠
        Digest.fromBytes ((behind.drop length).take headBytes)

/-- The records a snapshot spares an open of this many: none where it cannot be used, or
where the file no longer holds what it accounts for. -/
inductive SnapshotOf (records : List Stored) : Option Bytes → List Stored → Prop where
  | unusable (snapshot : Option Bytes) (h : Snapshot.read wire snapshot = none) :
      SnapshotOf records snapshot []
  | beyond (later : List Stored)
      (h : (fileOf wire records).length < (indexFor wire later).committed) :
      SnapshotOf records (some (Snapshot.write wire (indexFor wire later))) []
  | taken (spared : List Stored) (h : spared <+: records) :
      SnapshotOf records (some (Snapshot.write wire (indexFor wire spared))) spared

def Refused (bytes : Bytes) (snapshot : Option Bytes) : Prop :=
  ∃ cause, openHandle wire bytes snapshot = (.error cause, bytes, snapshot)

/-- The open never answers with fewer frames than these records, and never leaves a shorter
file. -/
def KeepsAcknowledged (records : List Stored) (bytes : Bytes) (snapshot : Option Bytes) : Prop :=
  ∀ answer now after, openHandle wire bytes snapshot = (answer, now, after) →
    (fileOf wire records).length ≤ now.length ∧
      ∀ held, answer = .ok held → records.length ≤ held.index.frames

end

variable {wire : Wire} {before after spared : List Stored} {stored : Stored} {length : UInt32}
  {snapshot : Option Bytes}

theorem fileOf_behindLength (before after : List Stored) (stored : Stored) :
    fileOf wire (before ++ stored :: after) =
      fileOf wire before ++ (Bytes.u32BE (UInt32.ofNat (archived wire stored).length) ++
        behindLength wire (indexFor wire before).tail stored after) := by
  rw [fileOf_append, layout, Frame.bytes, encode, behindLength]
  simp only [List.append_assoc]
  rfl

theorem length_underLength (before after : List Stored) (stored : Stored) (length : UInt32) :
    (underLength wire before stored after length).length =
      (fileOf wire (before ++ stored :: after)).length := by
  rw [fileOf_behindLength, underLength]
  simp only [List.length_append, Bytes.length_u32BE]

theorem underLength_split (before middle rest : List Stored) (stored : Stored)
    (length : UInt32) :
    ∃ left, underLength wire before stored (middle ++ rest) length =
        left ++ layout wire (indexFor wire (before ++ stored :: middle)).tail rest ∧
      left.length = (indexFor wire (before ++ stored :: middle)).committed := by
  refine ⟨underLength wire before stored middle length, ?_, ?_⟩
  · have hsplit := @layout_append wire middle rest (absorb wire (indexFor wire before) stored)
    rw [tail_absorb] at hsplit
    rw [underLength, underLength, behindLength, behindLength, hsplit, indexFor_append,
      List.foldl_cons]
    simp only [List.append_assoc]
  · rw [length_underLength, committed_indexFor]

section Reading

variable {file : PositionedFile} {place : Nat} {previous : Digest} {behind : Bytes}

theorem nextFrame_past_end (hpossible : isPossibleLength length.toNat maxFrameBytes = true)
    (hunread : file.unread = Bytes.u32BE length ++ behind)
    (hpast : behind.length < length.toNat + headBytes) :
    ∃ next, nextFrame wire file place previous = (.ok none, next) ∧ next.bytes = file.bytes := by
  have hbehind : (file.advance lengthBytes).unread = behind :=
    PositionedFile.unread_advance_append hunread
  have hfull : readPrefix file.unread = .full := by
    rw [hunread]
    exact readPrefix_u32BE length behind
  unfold nextFrame
  rw [hfull]
  simp only [hunread, take_u32BE, declaredLength, Bytes.ofBE_u32BE, hpossible, if_true]
  by_cases hpayload : length.toNat ≤ behind.length
  · have hread : (file.advance lengthBytes).readFull length.toNat =
        (some (behind.take length.toNat), (file.advance lengthBytes).advance length.toNat) := by
      unfold PositionedFile.readFull
      rw [hbehind, if_pos hpayload]
    have hshort : ((file.advance lengthBytes).advance length.toNat).unread.length < headBytes := by
      rw [PositionedFile.unread_advance, hbehind, List.length_drop]
      omega
    simp only [hread, PositionedFile.readFull_short hshort]
    exact ⟨_, rfl, rfl⟩
  · have hshort : (file.advance lengthBytes).unread.length < length.toNat := by
      rw [hbehind]
      omega
    simp only [PositionedFile.readFull_short hshort]
    exact ⟨_, rfl, rfl⟩

theorem nextFrame_inside (hpossible : isPossibleLength length.toNat maxFrameBytes = true)
    (hunread : file.unread = Bytes.u32BE length ++ behind)
    (hinside : length.toNat + headBytes ≤ behind.length)
    (hwrong : WrongLengthShows wire previous behind length.toNat) :
    ∃ next, nextFrame wire file place previous = (.error (.corrupt place), next) ∧
      next.bytes = file.bytes := by
  have hbehind : (file.advance lengthBytes).unread = behind :=
    PositionedFile.unread_advance_append hunread
  have hfull : readPrefix file.unread = .full := by
    rw [hunread]
    exact readPrefix_u32BE length behind
  have hpayload : (file.advance lengthBytes).readFull length.toNat =
      (some (behind.take length.toNat), (file.advance lengthBytes).advance length.toNat) := by
    unfold PositionedFile.readFull
    rw [hbehind, if_pos (by omega)]
  have hhead : ((file.advance lengthBytes).advance length.toNat).readFull headBytes =
      (some ((behind.drop length.toNat).take headBytes),
        ((file.advance lengthBytes).advance length.toNat).advance headBytes) := by
    unfold PositionedFile.readFull
    rw [PositionedFile.unread_advance, hbehind, if_pos (by rw [List.length_drop]; omega)]
  unfold nextFrame
  rw [hfull]
  simp only [hunread, take_u32BE, declaredLength, Bytes.ofBE_u32BE, hpossible, if_true, hpayload,
    hhead]
  cases hdecode : wire.fromBytes (behind.take length.toNat) with
  | none => exact ⟨_, rfl, rfl⟩
  | some read =>
    simp only []
    split
    · exact ⟨_, rfl, rfl⟩
    · rw [if_pos (hwrong hinside read hdecode)]
      exact ⟨_, rfl, rfl⟩

theorem drain_to_damage (lawful : wire.Lawful) {more : List Stored}
    (hwritable : ∀ read ∈ more, Writable wire read)
    (hbytes : file.bytes = underLength wire (spared ++ more) stored after length)
    (hposition : file.position = (indexFor wire spared).committed) :
    ∃ fuel next, next.bytes = file.bytes ∧
      next.unread = Bytes.u32BE length ++
        behindLength wire (indexFor wire (spared ++ more)).tail stored after ∧
      (indexFor wire (spared ++ more)).committed < file.len ∧
      drain wire file.len (file.len + 1) file (indexFor wire spared) (indexFor wire spared).tail =
        drain wire file.len (fuel + 1) next (indexFor wire (spared ++ more))
          (indexFor wire (spared ++ more)).tail := by
  have hunread : file.unread = layout wire (indexFor wire spared).tail more ++
      (Bytes.u32BE length ++
        behindLength wire (indexFor wire (spared ++ more)).tail stored after) := by
    refine PositionedFile.unread_of_split ?_ (hposition.trans (committed_indexFor spared))
    rw [hbytes, underLength, fileOf_append, List.append_assoc]
  have hcommitted : (indexFor wire (spared ++ more)).committed =
      (indexFor wire spared).committed +
        (layout wire (indexFor wire spared).tail more).length := by
    rw [committed_indexFor, committed_indexFor, fileOf_append, List.length_append]
  have hlength : (indexFor wire (spared ++ more)).committed + lengthBytes ≤ file.len := by
    rw [committed_indexFor, PositionedFile.len, hbytes, underLength, List.length_append,
      List.length_append, Bytes.length_u32BE]
    unfold lengthBytes
    omega
  have hfew := @length_le_layout wire more (indexFor wire spared).tail
  unfold lengthBytes at hlength
  refine ⟨file.len - more.length, file.advance
    (layout wire (indexFor wire spared).tail more).length, rfl,
    PositionedFile.unread_advance_append hunread, by omega, ?_⟩
  have hfuel : file.len + 1 = file.len - more.length + 1 + more.length := by omega
  rw [hfuel, drain_records lawful more hwritable hunread (by omega), ← indexFor_append]

end Reading

section Opening

variable {file : PositionedFile} {records : List Stored} {bytes : Bytes}

theorem trimToCommitted_congr {left right : PositionedFile} {index : Index}
    (h : left.bytes = right.bytes) :
    (trimToCommitted left index).bytes = (trimToCommitted right index).bytes := by
  unfold trimToCommitted PositionedFile.len PositionedFile.setLen
  rw [h]
  split
  · rfl
  · exact h

theorem trimToCommitted_whole {index : Index} (h : file.len = index.committed) :
    trimToCommitted file index = file := by
  unfold trimToCommitted
  rw [if_neg (not_not.mpr h)]

theorem trimToCommitted_again (file : PositionedFile) (index : Index) :
    trimToCommitted (trimToCommitted file index) index = trimToCommitted file index := by
  have hlength : (trimToCommitted file index).len = index.committed := by
    unfold trimToCommitted
    split
    · simp only [PositionedFile.len, PositionedFile.setLen, List.length_append, List.length_take,
        List.length_replicate]
      omega
    · rename_i hsame
      exact not_not.mp hsame
  exact trimToCommitted_whole hlength

theorem fullReplay_drains {rest : Bytes} {index folded : Index}
    (hheader : file.bytes = header ++ rest) {outcome : Except TenantStoreError Digest}
    {next : PositionedFile}
    (hdrain : drain wire file.len (file.len + 1) ⟨file.bytes, headerLen⟩ (.fresh wire)
      (genesisHead wire) = (outcome, next, folded)) :
    fullReplay wire file index = (outcome.map (fun _ => ()), next, folded) := by
  have hread := @PositionedFile.readFull_append (file.seek 0) header rest hheader
  rw [length_header] at hread
  have hbehind : (file.seek 0).advance headerLen = ⟨file.bytes, headerLen⟩ := by
    simp only [PositionedFile.advance, PositionedFile.seek, Nat.zero_add]
  unfold fullReplay
  simp only [hread, checkHeader_header, hbehind, hdrain]
  cases outcome <;> rfl

/-- A refresh is a drain from behind the records its index accounts for, with the torn tail
trimmed. -/
theorem refresh_drains {index folded : Index} (hroom : index.committed ≤ file.len)
    {outcome : Except TenantStoreError Digest} {next : PositionedFile}
    (hdrain : drain wire file.len (file.len + 1) ⟨file.bytes, index.committed⟩ index index.tail =
      (outcome, next, folded)) :
    ∃ last, refresh wire file index = (outcome.map (fun _ => ()), last, folded) ∧
      (last.bytes = next.bytes ∨
        ((∃ head, outcome = .ok head) ∧ last.bytes = (trimToCommitted next folded).bytes)) := by
  by_cases hsame : file.len = index.committed
  · rw [drain_end (Nat.le_of_eq hsame)] at hdrain
    cases hdrain
    exact ⟨file, refresh_whole hsame, .inl rfl⟩
  · have hseek : file.seek index.committed = ⟨file.bytes, index.committed⟩ := rfl
    unfold refresh
    simp only []
    rw [if_neg (Nat.not_lt_of_le hroom), if_neg hsame, hseek, hdrain]
    cases outcome with
    | error refusal => exact ⟨next, rfl, .inl rfl⟩
    | ok head => exact ⟨trimToCommitted next folded, rfl, .inr ⟨⟨head, rfl⟩, rfl⟩⟩

theorem loadIndex_drains (lawful : wire.Lawful) (hsnapshot : SnapshotOf wire records snapshot spared)
    {rest : Bytes} (hheader : file.bytes = header ++ rest)
    (hlength : file.len = (fileOf wire records).length)
    {outcome : Except TenantStoreError Digest} {next : PositionedFile} {folded : Index}
    (hdrain : drain wire file.len (file.len + 1)
      ⟨file.bytes, (indexFor wire spared).committed⟩ (indexFor wire spared)
      (indexFor wire spared).tail = (outcome, next, folded)) :
    ∃ last, loadIndex wire file snapshot = (outcome.map (fun _ => ()), last, folded) ∧
      (last.bytes = next.bytes ∨
        ((∃ head, outcome = .ok head) ∧ last.bytes = (trimToCommitted next folded).bytes)) := by
  cases hsnapshot with
  | unusable _ hread =>
    refine ⟨next, ?_, .inl rfl⟩
    unfold loadIndex
    rw [hread]
    exact fullReplay_drains hheader hdrain
  | beyond later hbeyond =>
    refine ⟨next, ?_, .inl rfl⟩
    rw [loadIndex_write lawful]
    unfold refresh
    simp only []
    rw [if_pos (by omega)]
    exact fullReplay_drains hheader hdrain
  | taken _ hearlier =>
    rw [loadIndex_write lawful]
    obtain ⟨more, rfl⟩ := hearlier
    refine refresh_drains ?_ hdrain
    rw [hlength, committed_indexFor, fileOf_append, List.length_append]
    omega

theorem openHeaderFile_of_header {rest : Bytes} (hheader : bytes = header ++ rest) :
    openHeaderFile bytes = ⟨bytes, 0⟩ := by
  unfold openHeaderFile
  rw [if_neg]
  rw [hheader, List.length_append, length_header]
  unfold headerLen
  omega

theorem refused_of_drain (lawful : wire.Lawful) (hsnapshot : SnapshotOf wire records snapshot spared)
    {rest : Bytes} (hheader : bytes = header ++ rest)
    (hlength : bytes.length = (fileOf wire records).length) {cause : TenantStoreError}
    {next : PositionedFile} {folded : Index}
    (hdrain : drain wire bytes.length (bytes.length + 1)
      ⟨bytes, (indexFor wire spared).committed⟩ (indexFor wire spared)
      (indexFor wire spared).tail = (.error cause, next, folded))
    (hnext : next.bytes = bytes) : Refused wire bytes snapshot := by
  obtain ⟨last, hload, hlast | ⟨⟨head, hok⟩, -⟩⟩ :=
    @loadIndex_drains wire spared snapshot ⟨bytes, 0⟩ records lawful hsnapshot rest hheader
      hlength _ _ _ hdrain
  · refine ⟨cause, ?_⟩
    unfold openHandle
    rw [openHeaderFile_of_header hheader, hload]
    simp only [Except.map, hlast, hnext]
  · cases hok

theorem accepted_of_drain (lawful : wire.Lawful) (hsnapshot : SnapshotOf wire records snapshot spared)
    {rest : Bytes} (hheader : bytes = header ++ rest)
    (hlength : bytes.length = (fileOf wire records).length) {head : Digest}
    {next : PositionedFile} {folded : Index}
    (hdrain : drain wire bytes.length (bytes.length + 1)
      ⟨bytes, (indexFor wire spared).committed⟩ (indexFor wire spared)
      (indexFor wire spared).tail = (.ok head, next, folded)) :
    ∃ held after, openHandle wire bytes snapshot =
        (.ok held, (trimToCommitted next folded).bytes, after) ∧ held.index = folded := by
  obtain ⟨last, hload, hlast⟩ :=
    @loadIndex_drains wire spared snapshot ⟨bytes, 0⟩ records lawful hsnapshot rest hheader
      hlength _ _ _ hdrain
  have htrim : (trimToCommitted last folded).bytes = (trimToCommitted next folded).bytes := by
    rcases hlast with hsame | ⟨-, hsame⟩
    · exact trimToCommitted_congr hsame
    · rw [trimToCommitted_congr hsame, trimToCommitted_again]
  unfold openHandle
  rw [openHeaderFile_of_header hheader, hload]
  simp only [Except.map, htrim]
  exact ⟨_, _, rfl, rfl⟩

end Opening

section Damage

theorem SnapshotOf.prefix {records : List Stored} (h : SnapshotOf wire records snapshot spared) :
    spared <+: records := by
  cases h with
  | unusable | beyond => exact List.nil_prefix
  | taken _ hearlier => exact hearlier

theorem underLength_header (before after : List Stored) (stored : Stored) (length : UInt32) :
    ∃ rest, underLength wire before stored after length = header ++ rest := by
  rw [underLength, fileOf, List.append_assoc]
  exact ⟨_, rfl⟩

theorem split_of_longer (h : spared <+: before ++ stored :: after)
    (hlonger : before.length < spared.length) :
    ∃ middle rest, spared = before ++ stored :: middle ∧ after = middle ++ rest := by
  obtain ⟨rest, hrest⟩ := h
  rcases List.append_eq_append_iff.mp hrest with ⟨extra, hbefore, -⟩ | ⟨extra, hbefore, hstored⟩
  · rw [hbefore, List.length_append] at hlonger
    omega
  · cases extra with
    | nil =>
      rw [hbefore, List.append_nil] at hlonger
      omega
    | cons first middle =>
      obtain ⟨rfl, hafter⟩ := List.cons.inj hstored
      exact ⟨middle, rest, hbefore, hafter⟩

theorem accepted_of_spared (lawful : wire.Lawful)
    (hwritable : ∀ read ∈ before ++ stored :: after, Writable wire read)
    (hsnapshot : SnapshotOf wire (before ++ stored :: after) snapshot spared)
    (hspared : before.length < spared.length) :
    ∃ held last, openHandle wire (underLength wire before stored after length) snapshot =
        (.ok held, underLength wire before stored after length, last) ∧
      held.index = indexFor wire (before ++ stored :: after) := by
  obtain ⟨middle, rest, rfl, rfl⟩ := split_of_longer hsnapshot.prefix hspared
  obtain ⟨left, hsplit, hleft⟩ := @underLength_split wire before middle rest stored length
  obtain ⟨behind, hheader⟩ := @underLength_header wire before (middle ++ rest) stored length
  have hwhole := @length_underLength wire before (middle ++ rest) stored length
  have hlength : (underLength wire before stored (middle ++ rest) length).length =
      (indexFor wire (before ++ stored :: middle)).committed +
        (layout wire (indexFor wire (before ++ stored :: middle)).tail rest).length := by
    rw [hsplit, List.length_append, hleft]
  have hfew := @length_le_layout wire rest (indexFor wire (before ++ stored :: middle)).tail
  generalize hbytes : underLength wire before stored (middle ++ rest) length = bytes at *
  have hdrain : drain wire bytes.length (bytes.length + 1)
      ⟨bytes, (indexFor wire (before ++ stored :: middle)).committed⟩
      (indexFor wire (before ++ stored :: middle))
      (indexFor wire (before ++ stored :: middle)).tail =
        (.ok (indexFor wire (before ++ stored :: (middle ++ rest))).tail,
          (⟨bytes, (indexFor wire (before ++ stored :: middle)).committed⟩ : PositionedFile).advance
            (layout wire (indexFor wire (before ++ stored :: middle)).tail rest).length,
          indexFor wire (before ++ stored :: (middle ++ rest))) := by
    have hrecords : before ++ stored :: (middle ++ rest) = before ++ stored :: middle ++ rest := by
      rw [List.append_assoc, List.cons_append]
    have hunread : (⟨bytes, (indexFor wire (before ++ stored :: middle)).committed⟩ :
        PositionedFile).unread =
          layout wire (indexFor wire (before ++ stored :: middle)).tail rest ++ [] := by
      rw [List.append_nil]
      exact PositionedFile.unread_of_split hsplit hleft.symm
    have hfuel : bytes.length + 1 = bytes.length + 1 - rest.length + rest.length := by omega
    rw [hfuel, drain_records lawful rest (fun read hread => hwritable read (by
        rw [hrecords]
        exact List.mem_append_right _ hread)) hunread (by omega), ← indexFor_append, ← hrecords,
      drain_end (by rw [committed_indexFor]; omega)]
  obtain ⟨held, last, hopen, hindex⟩ :=
    accepted_of_drain lawful hsnapshot hheader hwhole hdrain
  refine ⟨held, last, ?_, hindex⟩
  rw [hopen, trimToCommitted_whole]
  · rfl
  · exact hwhole.trans (committed_indexFor _).symm

variable (lawful : wire.Lawful)
  (hwritable : ∀ read ∈ before ++ stored :: after, Writable wire read)
  (hsnapshot : SnapshotOf wire (before ++ stored :: after) snapshot spared)
  (hspared : spared.length ≤ before.length)
  (hpossible : isPossibleLength length.toNat maxFrameBytes = true)

include lawful hwritable hsnapshot hspared hpossible

/-- An open that meets the damaged frame refuses where the raised length ends inside the
file. -/
theorem refused_of_inside
    (hinside : length.toNat + headBytes ≤
      (behindLength wire (indexFor wire before).tail stored after).length)
    (hwrong : WrongLengthShows wire (indexFor wire before).tail
      (behindLength wire (indexFor wire before).tail stored after) length.toNat) :
    Refused wire (underLength wire before stored after length) snapshot := by
  obtain ⟨more, rfl⟩ := List.prefix_of_prefix_length_le hsnapshot.prefix
    (List.prefix_append before (stored :: after)) hspared
  obtain ⟨rest, hheader⟩ := @underLength_header wire (spared ++ more) after stored length
  obtain ⟨fuel, next, hnext, hunread, hless, hdrain⟩ :=
    @drain_to_damage wire after spared stored length
      ⟨underLength wire (spared ++ more) stored after length, (indexFor wire spared).committed⟩
      lawful more (fun read hread => hwritable read
        (List.mem_append_left _ (List.mem_append_right _ hread))) rfl rfl
  obtain ⟨last, hframe, hlast⟩ := @nextFrame_inside wire length next
    (indexFor wire (spared ++ more)).frames _ _ hpossible hunread hinside hwrong
  unfold drain at hdrain
  rw [if_pos hless, hframe] at hdrain
  exact refused_of_drain lawful hsnapshot hheader (length_underLength _ _ _ _) hdrain
    (hlast.trans hnext)

/-- And cuts the file back to the frames in front of it where the raised length runs past the
end. -/
theorem cut_of_past
    (hpast : (behindLength wire (indexFor wire before).tail stored after).length <
      length.toNat + headBytes) :
    ∃ held last, openHandle wire (underLength wire before stored after length) snapshot =
        (.ok held, fileOf wire before, last) ∧ held.index = indexFor wire before := by
  obtain ⟨more, rfl⟩ := List.prefix_of_prefix_length_le hsnapshot.prefix
    (List.prefix_append before (stored :: after)) hspared
  obtain ⟨rest, hheader⟩ := @underLength_header wire (spared ++ more) after stored length
  obtain ⟨fuel, next, hnext, hunread, hless, hdrain⟩ :=
    @drain_to_damage wire after spared stored length
      ⟨underLength wire (spared ++ more) stored after length, (indexFor wire spared).committed⟩
      lawful more (fun read hread => hwritable read
        (List.mem_append_left _ (List.mem_append_right _ hread))) rfl rfl
  obtain ⟨last, hframe, hlast⟩ := @nextFrame_past_end wire length next
    (indexFor wire (spared ++ more)).frames (indexFor wire (spared ++ more)).tail _ hpossible
    hunread hpast
  unfold drain at hdrain
  rw [if_pos hless, hframe] at hdrain
  obtain ⟨held, after', hopen, hindex⟩ :=
    accepted_of_drain lawful hsnapshot hheader (length_underLength _ _ _ _) hdrain
  refine ⟨held, after', ?_, hindex⟩
  rw [hopen, trimToCommitted_file (hlast.trans hnext)]

end Damage

theorem length_fileOf_lt (before after : List Stored) (stored : Stored) :
    (fileOf wire before).length < (fileOf wire (before ++ stored :: after)).length := by
  rw [fileOf_behindLength, List.length_append, List.length_append, Bytes.length_u32BE]
  omega

theorem Refused.keeps {records : List Stored} {bytes : Bytes} (h : Refused wire bytes snapshot)
    (hlength : bytes.length = (fileOf wire records).length) :
    KeepsAcknowledged wire records bytes snapshot := by
  obtain ⟨cause, hopen⟩ := h
  intro answer now after hanswer
  cases hopen.symm.trans hanswer
  refine ⟨Nat.le_of_eq hlength.symm, ?_⟩
  intro held hok
  cases hok

/-- A length raised to another allowed one makes an open refuse exactly where the open comes to
read it and it ends inside the file, and an open loses what was acknowledged exactly where it
comes to read it and it runs past the end. -/
theorem raised_length_refused_iff (lawful : wire.Lawful)
    (hwritable : ∀ read ∈ before ++ stored :: after, Writable wire read)
    (hsnapshot : SnapshotOf wire (before ++ stored :: after) snapshot spared)
    (hraised : (archived wire stored).length < length.toNat)
    (hallowed : length.toNat ≤ maxFrameBytes)
    (hwrong : WrongLengthShows wire (indexFor wire before).tail
      (behindLength wire (indexFor wire before).tail stored after) length.toNat) :
    (Refused wire (underLength wire before stored after length) snapshot ∧
          KeepsAcknowledged wire (before ++ stored :: after)
            (underLength wire before stored after length) snapshot ↔
        spared.length ≤ before.length ∧ length.toNat + headBytes ≤
          (behindLength wire (indexFor wire before).tail stored after).length) ∧
      (KeepsAcknowledged wire (before ++ stored :: after)
          (underLength wire before stored after length) snapshot ↔
        before.length < spared.length ∨ length.toNat + headBytes ≤
          (behindLength wire (indexFor wire before).tail stored after).length) := by
  have hpossible : isPossibleLength length.toNat maxFrameBytes = true :=
    isPossibleLength_iff.mpr ⟨by omega, hallowed⟩
  have hsame := @length_underLength wire before after stored length
  rcases Nat.lt_or_ge before.length spared.length with hspared | hspared
  · obtain ⟨held, last, hopen, hindex⟩ :=
      @accepted_of_spared wire before after spared stored length snapshot lawful hwritable
        hsnapshot hspared
    have haccepted : ¬ Refused wire (underLength wire before stored after length) snapshot := by
      rintro ⟨cause, hrefused⟩
      cases hopen.symm.trans hrefused
    have hkeeps : KeepsAcknowledged wire (before ++ stored :: after)
        (underLength wire before stored after length) snapshot := by
      intro answer now after' hanswer
      cases hopen.symm.trans hanswer
      refine ⟨Nat.le_of_eq hsame.symm, ?_⟩
      intro answered hok
      cases hok
      rw [hindex, frames_indexFor]
    exact ⟨iff_of_false (fun h => haccepted h.1) (fun h => by omega),
      iff_of_true hkeeps (.inl hspared)⟩
  · rcases Nat.lt_or_ge (behindLength wire (indexFor wire before).tail stored after).length
      (length.toNat + headBytes) with hpast | hinside
    · obtain ⟨held, last, hopen, hindex⟩ :=
        cut_of_past lawful hwritable hsnapshot hspared hpossible hpast
      have hloses : ¬ KeepsAcknowledged wire (before ++ stored :: after)
          (underLength wire before stored after length) snapshot := by
        intro hkeeps
        have hless := @length_fileOf_lt wire before after stored
        have hkept := (hkeeps _ _ _ hopen).1
        omega
      exact ⟨iff_of_false (fun h => hloses h.2) (fun h => by omega),
        iff_of_false hloses (fun h => by omega)⟩
    · have hrefused := refused_of_inside lawful hwritable hsnapshot hspared hpossible hinside hwrong
      have hkeeps := hrefused.keeps hsame
      exact ⟨iff_of_true ⟨hrefused, hkeeps⟩ ⟨hspared, hinside⟩, iff_of_true hkeeps (.inr hinside)⟩

namespace PlainWire

def raisedByOne (stored : Stored) : UInt32 := UInt32.ofNat ((archived plain stored).length + 1)

/-- The first of two records under a length raised by one: the open refuses. -/
theorem raised_length_refused_first :
    Refused plain (underLength plain [] policyRecord [beginRecord] (raisedByOne policyRecord))
        none ∧
      KeepsAcknowledged plain [policyRecord, beginRecord]
        (underLength plain [] policyRecord [beginRecord] (raisedByOne policyRecord)) none := by
  have hnone : plain.fromBytes ((behindLength plain (indexFor plain []).tail policyRecord
      [beginRecord]).take (raisedByOne policyRecord).toNat) = none := by
    decide +kernel
  refine (@raised_length_refused_iff plain [] [beginRecord] [] policyRecord
    (raisedByOne policyRecord) none lawful writable_two (.unusable none rfl) (by decide +kernel)
    (by decide +kernel) ?_).1.mpr ⟨Nat.le_refl 0, by decide +kernel⟩
  intro _ read hread
  cases hnone.symm.trans hread

/-- A lone record under a length raised by one: the open accepts the file and cuts it back to
its header. -/
theorem raised_length_cut :
    ∃ held last,
      openHandle plain (underLength plain [] policyRecord [] (raisedByOne policyRecord)) none =
          (.ok held, header, last) ∧
        held.index.frames = 0 ∧
        ¬ Refused plain (underLength plain [] policyRecord [] (raisedByOne policyRecord)) none ∧
        ¬ KeepsAcknowledged plain [policyRecord]
          (underLength plain [] policyRecord [] (raisedByOne policyRecord)) none := by
  obtain ⟨held, last, hopen, hindex⟩ := @cut_of_past plain [] [] [] policyRecord
    (raisedByOne policyRecord) none lawful
    (fun read hread => writable_two read (List.mem_cons.mpr (.inl (List.mem_singleton.mp hread))))
    (.unusable none rfl) (Nat.le_refl 0) (by decide +kernel) (by decide +kernel)
  have hheader : fileOf plain [] = header := List.append_nil header
  rw [hheader] at hopen
  refine ⟨held, last, hopen, ?_, ?_, ?_⟩
  · rw [hindex]
    rfl
  · rintro ⟨cause, hrefused⟩
    cases hopen.symm.trans hrefused
  · intro hkeeps
    have hframes := (hkeeps _ _ _ hopen).2 held rfl
    rw [hindex] at hframes
    exact absurd hframes (by decide)

end PlainWire

end LogicalWorks.Tenant
