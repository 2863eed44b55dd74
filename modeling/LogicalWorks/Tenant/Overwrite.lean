import LogicalWorks.Tenant.Rows

/-! Where a mutation lands whose handle never moved: a handle that opened from a snapshot of
the whole file stands at the file's start, and its first frame overwrites the header. -/
namespace LogicalWorks.Tenant

open Journal LogicalWorks.Task

variable {wire : Wire}

theorem refresh_whole {file : PositionedFile} {index : Index}
    (hwhole : file.len = index.committed) : refresh wire file index = (.ok (), file, index) := by
  unfold refresh
  simp only []
  rw [if_neg (by omega), if_pos hwhole]

theorem frames_foldl (records : List Stored) (index : Index) :
    (records.foldl (absorb wire) index).frames = index.frames + records.length := by
  induction records generalizing index with
  | nil => rfl
  | cons stored rest ih =>
    rw [List.foldl_cons, ih, List.length_cons, Nat.add_comm rest.length, ← Nat.add_assoc]
    rfl

theorem frames_indexFor (records : List Stored) :
    (indexFor wire records).frames = records.length := by
  unfold indexFor
  rw [frames_foldl]
  exact Nat.zero_add _

theorem openHandle_of_whole (lawful : wire.Lawful) (records : List Stored) :
    openHandle wire (fileOf wire records) (some (Snapshot.write wire (indexFor wire records))) =
      (.ok ⟨0, indexFor wire records, records.length⟩, fileOf wire records,
        some (Snapshot.write wire (indexFor wire records))) := by
  have hfile : openHeaderFile (fileOf wire records) = ⟨fileOf wire records, 0⟩ := by
    unfold openHeaderFile
    rw [if_neg (fun hempty => fileOf_ne_nil records (List.length_eq_zero_iff.mp hempty))]
  have hwhole : (⟨fileOf wire records, 0⟩ : PositionedFile).len = (indexFor wire records).committed :=
    (committed_indexFor records).symm
  have htrim : trimToCommitted ⟨fileOf wire records, 0⟩ (indexFor wire records) =
      ⟨fileOf wire records, 0⟩ := by
    unfold trimToCommitted
    rw [if_neg (not_not.mpr hwhole)]
  obtain ⟨loaded, hread, hindex⟩ :=
    Snapshot.read_write lawful (@headerLen_le_committed wire records)
  have hframes : loaded.frames = records.length := by
    rw [← @frames_indexFor wire records, ← hindex]
    rfl
  have hkeep : maybeSnapshot wire (indexFor wire records) records.length
      (some (Snapshot.write wire (indexFor wire records))) =
      (some (Snapshot.write wire (indexFor wire records)), records.length) := by
    unfold maybeSnapshot
    rw [frames_indexFor, Nat.sub_self, if_pos (by decide)]
  unfold openHandle
  rw [hfile, loadIndex_write lawful, refresh_whole hwhole, hread]
  simp only [htrim, Option.map_some, Option.getD_some, hframes, hkeep]

theorem opens_of_whole (lawful : wire.Lawful) {store : Store} {records : List Stored}
    (hbytes : store.bytes = fileOf wire records)
    (hsnapshot : store.snapshot = some (Snapshot.write wire (indexFor wire records))) (id : Nat) :
    store.act wire (.opens id) =
      { store with
        handles := store.handles.insert id ⟨0, indexFor wire records, records.length⟩ } := by
  simp only [Store.act, Store.opens, hbytes, hsnapshot, openHandle_of_whole lawful]

theorem frameOf_writable {stored : Stored} (hwritable : Writable wire stored)
    (previous : Digest) :
    frameOf wire stored previous = .ok ((frameBehind wire previous stored).bytes,
      (frameBehind wire previous stored).head) := by
  obtain ⟨-, payload, harchive, -, -⟩ := id hwritable
  have hpayload : archived wire stored = payload := by
    rw [archived, harchive, Option.getD_some]
  refine frameRecord_of_fits ?_ (hwritable.fits previous)
  simp only [harchive, hpayload]

theorem act_transact_whole {store : Store} {id : Nat} {held : Held} {operation : Operation}
    {stored : Stored} {answer : Answer} (hheld : store.handles.get id = some held)
    (hwhole : store.bytes.length = held.index.committed)
    (happly : operation.apply held.index = .ok (some stored, answer))
    (hwritable : Writable wire stored) :
    store.act wire (.transact id operation) =
      { bytes := ((⟨store.bytes, held.position⟩ : PositionedFile).writeAll
          (frameBehind wire held.index.tail stored).bytes).bytes
        snapshot := (maybeSnapshot wire (absorb wire held.index stored) held.snapshotFrames
          store.snapshot).1
        handles := store.handles.insert id
          ⟨((⟨store.bytes, held.position⟩ : PositionedFile).writeAll
              (frameBehind wire held.index.tail stored).bytes).position,
            absorb wire held.index stored,
            (maybeSnapshot wire (absorb wire held.index stored) held.snapshotFrames
              store.snapshot).2⟩
        written := store.written ++ [stored] } := by
  have hprepare : prepare wire ⟨store.bytes, held.position⟩ held.index operation =
      (.ok (some ⟨stored, (frameBehind wire held.index.tail stored).bytes,
        (frameBehind wire held.index.tail stored).head⟩, answer),
        ⟨store.bytes, held.position⟩, held.index) := by
    unfold prepare
    rw [@refresh_whole wire ⟨store.bytes, held.position⟩ held.index hwhole]
    simp only [happly, frameOf_writable hwritable]
  have hcommit := (prepare_some hprepare).2.2.2.2
  simp only [Store.act, hheld, Store.transact, hprepare, hcommit]

/-- A frame of an allowed size starts with a zero, which no store starts with. -/
theorem bytes_of_fits {frame : Frame} (hfits : frame.Fits maxFrameBytes) :
    ∃ rest, frame.bytes = 0 :: rest := by
  have hsize := (isPossibleLength_iff.mp hfits.1).2
  unfold maxFrameBytes at hsize
  have hzero : (UInt32.ofNat frame.payload.length >>> 24).toUInt8 = 0 := by
    apply UInt8.toNat_inj.mp
    simp only [UInt32.toNat_toUInt8, UInt32.toNat_shiftRight, UInt32.reduceToNat,
      Nat.reduceMod, Nat.shiftRight_eq_div_pow, UInt32.toNat_ofNat', UInt8.toNat_zero]
    omega
  unfold Frame.bytes encode Bytes.u32BE
  rw [hzero]
  exact ⟨_, rfl⟩

theorem bytes_ne_nil {frame : Frame} (hfits : frame.Fits maxFrameBytes) : frame.bytes ≠ [] := by
  obtain ⟨rest, hzero⟩ := bytes_of_fits hfits
  rw [hzero]
  exact List.cons_ne_nil _ _

theorem fullReplay_overwritten {frame : Frame} (hfits : frame.Fits maxFrameBytes) {rest : Bytes}
    {position : Nat} {index : Index} :
    (fullReplay wire ⟨frame.bytes ++ rest, position⟩ index).1 = .error .notAStore := by
  have hroom : headerLen ≤ (frame.bytes ++ rest).length := by
    rw [List.length_append, Frame.length_bytes, framedLen]
    unfold headBytes headerLen
    omega
  obtain ⟨others, hzero⟩ := bytes_of_fits hfits
  have hheader : ((⟨frame.bytes ++ rest, position⟩ : PositionedFile).seek 0).readFull headerLen =
      (some (0 :: (others ++ rest).take 15), ⟨frame.bytes ++ rest, headerLen⟩) := by
    unfold PositionedFile.readFull PositionedFile.unread
    simp only [PositionedFile.seek, List.drop_zero]
    rw [if_pos hroom, hzero]
    rfl
  have hrefused : checkHeader (0 :: (others ++ rest).take 15) = .error .notAStore := by
    unfold checkHeader
    rw [if_pos]
    intro hsame
    exact absurd (show some 0 = (storeMagic.take versionByte).head? from
      congrArg List.head? hsame) (by decide +kernel)
  unfold fullReplay
  simp only [hheader, hrefused]

def filled (wire : Wire) (records : List Stored) : Store where
  bytes := fileOf wire records
  snapshot := (maybeSnapshot wire (indexFor wire records) 0 none).1
  handles := Table.empty.insert 0 ⟨(fileOf wire records).length, indexFor wire records,
    (maybeSnapshot wire (indexFor wire records) 0 none).2⟩
  written := records

theorem act_filled {records : List Stored} {operation : Operation} {stored : Stored}
    {answer : Answer} (hfew : records.length < snapshotIntervalFrames)
    (happly : operation.apply (indexFor wire records) = .ok (some stored, answer))
    (hwritable : Writable wire stored) :
    (filled wire records).act wire (.transact 0 operation) =
      filled wire (records ++ [stored]) := by
  have hnone : maybeSnapshot wire (indexFor wire records) 0 none = (none, 0) := by
    unfold maybeSnapshot
    rw [frames_indexFor, Nat.sub_zero, if_pos hfew]
  have hact := @act_transact_whole wire (filled wire records) 0
    ⟨(fileOf wire records).length, indexFor wire records, 0⟩ operation stored answer
    (by simp [filled, hnone]) (committed_indexFor records).symm happly hwritable
  have habsorb : absorb wire (indexFor wire records) stored =
      indexFor wire (records ++ [stored]) := by
    rw [indexFor_append]
    rfl
  have hgrow : fileOf wire records ++ (frameBehind wire (indexFor wire records).tail stored).bytes =
      fileOf wire (records ++ [stored]) := by
    rw [fileOf_append, layout, layout, List.append_nil]
  rw [hact]
  have hwrite := @PositionedFile.writeAll_at_end
    ⟨fileOf wire records, (fileOf wire records).length⟩
    (frameBehind wire (indexFor wire records).tail stored).bytes rfl
  have hlength := congrArg List.length hgrow
  rw [List.length_append] at hlength
  simp only [filled, hnone, habsorb, hwrite, hgrow, hlength]
  rfl

def splitActions (tenant : String) : List Action :=
  [.opens 1, .transact 1 (.initPolicy tenant "b" 0 ""), .transact 0 (.initPolicy tenant "a" 0 "")]

/-- Two handles that both account for the whole file answer for different policies of one
tenant, and the file is refused. -/
structure Split (wire : Wire) (tenant : String) (store : Store) : Prop where
  first : ∃ held, store.handles.get 0 = some held ∧
    refresh wire ⟨store.bytes, held.position⟩ held.index =
      (.ok (), ⟨store.bytes, held.position⟩, held.index) ∧
    held.index.policies.get tenant = some ⟨"a", 0, ""⟩
  second : ∃ held, store.handles.get 1 = some held ∧
    refresh wire ⟨store.bytes, held.position⟩ held.index =
      (.ok (), ⟨store.bytes, held.position⟩, held.index) ∧
    held.index.policies.get tenant = some ⟨"b", 0, ""⟩
  twice : 2 ≤ store.written.countP (isPolicyOf tenant)
  refused : (fullReplay wire ⟨store.bytes, 0⟩ (.fresh wire)).1 = .error .notAStore

def reopened (wire : Wire) (records : List Stored) : Store :=
  { filled wire records with
    handles := (filled wire records).handles.insert 1
      ⟨0, indexFor wire records, records.length⟩ }

theorem snapshot_of_full {records : List Stored} (hfull : records.length = snapshotIntervalFrames) :
    maybeSnapshot wire (indexFor wire records) 0 none =
      (some (Snapshot.write wire (indexFor wire records)), records.length) := by
  unfold maybeSnapshot
  rw [frames_indexFor, hfull, if_neg (by decide)]

theorem opens_filled (lawful : wire.Lawful) {records : List Stored}
    (hfull : records.length = snapshotIntervalFrames) :
    (filled wire records).act wire (.opens 1) = reopened wire records := by
  refine opens_of_whole lawful rfl ?_ 1
  simp only [filled, snapshot_of_full hfull]

theorem get_reopened {records : List Stored} (hfull : records.length = snapshotIntervalFrames) :
    (reopened wire records).handles.get 0 =
      some ⟨(fileOf wire records).length, indexFor wire records, records.length⟩ := by
  unfold reopened
  rw [Table.get_insert_of_ne _ _ (by decide)]
  simp [filled, snapshot_of_full hfull]

theorem committed_absorb_indexFor (records : List Stored) (stored : Stored) :
    (absorb wire (indexFor wire records) stored).committed =
      (fileOf wire records).length + framedLen (archived wire stored).length := by
  rw [← committed_indexFor]
  rfl

theorem policies_absorb (index : Index) (tenant gates : String) :
    (absorb wire index (.initPolicy tenant gates 0 "")).policies.get tenant =
      some ⟨gates, 0, ""⟩ :=
  Table.get_insert_self _ _ _

/-- Both mutations of a tenant's policy are accepted where the second handle overwrote the
header: neither handle sees the other's. -/
theorem split_of_filled (lawful : wire.Lawful) {records : List Stored}
    (hfull : records.length = snapshotIntervalFrames) {tenant : String}
    (hnew : (indexFor wire records).policies.get tenant = none)
    (hwritable : ∀ gates ∈ ["a", "b"], Writable wire (.initPolicy tenant gates 0 ""))
    (hlength : (archived wire (.initPolicy tenant "a" 0 "")).length =
      (archived wire (.initPolicy tenant "b" 0 "")).length)
    (hshort : framedLen (archived wire (.initPolicy tenant "b" 0 "")).length ≤
      (fileOf wire records).length) :
    Split wire tenant ((splitActions tenant).foldl (Store.act wire) (filled wire records)) := by
  have hfirst := hwritable "a" (by simp)
  have hsecond := hwritable "b" (by simp)
  have happly : ∀ gates, (Operation.initPolicy tenant gates 0 "").apply
      (indexFor wire records) = .ok (some (.initPolicy tenant gates 0 ""), .done) := by
    intro gates
    simp [Operation.apply, initPolicy, hnew]
  have hwhole : (fileOf wire records).length = (indexFor wire records).committed :=
    (committed_indexFor records).symm
  -- the second handle writes over the header, and the file keeps its length
  have hover := @act_transact_whole wire (reopened wire records) 1
    ⟨0, indexFor wire records, records.length⟩ (.initPolicy tenant "b" 0 "") _ _
    (Table.get_insert_self _ _ _) hwhole (happly "b") hsecond
  have hkeeps := @PositionedFile.length_writeAll_inside ⟨fileOf wire records, 0⟩
    (frameBehind wire (indexFor wire records).tail (.initPolicy tenant "b" 0 "")).bytes
    (by rw [Nat.zero_add, Frame.length_bytes]; exact hshort)
  -- so the first one reads nothing new, and writes at the end
  have hbehind := @act_transact_whole wire
    ((reopened wire records).act wire (.transact 1 (.initPolicy tenant "b" 0 ""))) 0
    ⟨(fileOf wire records).length, indexFor wire records, records.length⟩
    (.initPolicy tenant "a" 0 "") _ _
    (by rw [hover, Table.get_insert_of_ne _ _ (by decide)]; exact get_reopened hfull)
    (by rw [hover]; exact hkeeps.trans hwhole) (happly "a") hfirst
  have hend := @PositionedFile.writeAll_at_end
    ⟨((⟨fileOf wire records, 0⟩ : PositionedFile).writeAll
      (frameBehind wire (indexFor wire records).tail (.initPolicy tenant "b" 0 "")).bytes).bytes,
      (fileOf wire records).length⟩
    (frameBehind wire (indexFor wire records).tail (.initPolicy tenant "a" 0 "")).bytes hkeeps.symm
  rw [splitActions, List.foldl_cons, opens_filled lawful hfull, List.foldl_cons, List.foldl_cons,
    List.foldl_nil, hbehind, hover]
  simp only [reopened, filled]
  rw [hend]
  refine ⟨⟨_, Table.get_insert_self _ _ _, refresh_whole ?_, policies_absorb _ _ _⟩,
    ⟨_, by rw [Table.get_insert_of_ne _ _ (by decide), Table.get_insert_self],
      refresh_whole ?_, policies_absorb _ _ _⟩, ?_, ?_⟩
  · rw [PositionedFile.len, List.length_append, hkeeps, Frame.length_bytes,
      committed_absorb_indexFor]
    rfl
  · rw [PositionedFile.len, List.length_append, hkeeps, Frame.length_bytes,
      committed_absorb_indexFor, ← hlength]
    rfl
  · have hpolicies : ∀ gates, isPolicyOf tenant (.initPolicy tenant gates 0 "") = true := by
      intro gates
      simp [isPolicyOf, Stored.initPolicy, Stored.empty]
    rw [List.countP_append, List.countP_append, List.countP_singleton, List.countP_singleton,
      if_pos (hpolicies "b"), if_pos (hpolicies "a")]
    omega
  · simp only [PositionedFile.writeAll, if_neg (bytes_ne_nil (hsecond.fits _)), List.take_zero,
      Nat.zero_sub, List.replicate_zero, List.nil_append, List.append_assoc]
    exact fullReplay_overwritten (hsecond.fits _)

namespace PlainWire

open StreamCodec
open Journal.PlainWire (byte word)

def tenantName (count : Nat) : String := String.ofList (List.replicate count 'a')

def busyPolicy (count : Nat) : Stored := .initPolicy (tenantName count) "" 0 ""

def busyRecords (count : Nat) : List Stored := (List.range count).map busyPolicy

def busyActions (count : Nat) : List Action :=
  (List.range count).map fun count => .transact 0 (.initPolicy (tenantName count) "" 0 "")

theorem length_text_tenantName (count : Nat) :
    (text.encode (tenantName count)).length = 1 + 4 * count := by
  have hletter : (number.encode ('a').toNat).length = 3 := by decide +kernel
  change ((list number).encode ((tenantName count).toList.map Char.toNat)).length = _
  rw [tenantName, String.toList_ofList, List.map_replicate]
  change (nat.encode _ ++ List.flatMap _ _).length = _
  rw [List.length_append, List.length_flatMap, List.map_replicate, List.sum_replicate_nat, hletter]
  simp [nat]
  omega

theorem length_archived_policy (tenant gates : String) :
    (archived plain (.initPolicy tenant gates 0 "")).length =
      (text.encode tenant).length + (text.encode gates).length + 21 := by
  have hkind : (byte.encode kindInitPolicy).length = 2 := by decide +kernel
  have hrun : ((text.pair (text.pair (text.pair (processId.pair (text.pair
      (text.pair (list text))))))).encode ("", "", "", 0, "", "", [])).length = 9 := by
    decide +kernel
  have hlane : (word.encode 0).length = 1 := by decide +kernel
  have hempty : (text.encode "").length = 1 := by decide +kernel
  have htail : (bytes.encode []).length = 3 := by decide +kernel
  have hhardness : (byte.encode 0).length = 1 := by decide +kernel
  change ((byte.encode kindInitPolicy ++ (text.encode tenant ++ (text.pair (text.pair (text.pair
    (processId.pair (text.pair (text.pair (list text))))))).encode ("", "", "", 0, "", "", []))) ++
    (word.encode 0 ++ (text.encode "" ++ (text.encode "" ++ (text.encode "" ++ (text.encode "" ++
      (text.encode "" ++ (bytes.encode [] ++ (text.encode gates ++ byte.encode 0))))))))).length = _
  simp only [List.length_append, hkind, hrun, hlane, hempty, htail, hhardness]
  omega

theorem writable_policy {tenant gates : String}
    (hroom : (text.encode tenant).length + (text.encode gates).length + 21 ≤ maxFrameBytes) :
    Writable plain (.initPolicy tenant gates 0 "") := by
  rw [← length_archived_policy] at hroom
  refine writable_record (by rfl) (isPossibleLength_iff.mpr ⟨?_, hroom⟩) ?_
  · rw [length_archived_policy]
    omega
  · unfold maxFrameBytes at hroom
    omega

theorem policies_get_of_countP {records : List Stored} (h : Admitted plain records)
    {tenant : String} (hnone : records.countP (isPolicyOf tenant) = 0) :
    (indexFor plain records).policies.get tenant = none := by
  have hcount := h.policies_count tenant
  rw [hnone] at hcount
  cases hpolicy : (indexFor plain records).policies.get tenant with
  | none => rfl
  | some policy =>
    rw [hpolicy] at hcount
    cases hcount

theorem countP_busyRecords {count : Nat} {tenant : String}
    (hother : ∀ earlier, earlier < count → tenantName earlier ≠ tenant) :
    (busyRecords count).countP (isPolicyOf tenant) = 0 := by
  rw [List.countP_eq_zero]
  intro stored hstored hpolicy
  obtain ⟨earlier, hearlier, rfl⟩ := List.mem_map.mp hstored
  refine hother earlier (List.mem_range.mp hearlier) ?_
  exact of_decide_eq_true (Bool.and_eq_true_iff.mp hpolicy).2

theorem busy_filled (count : Nat) (hfew : count ≤ snapshotIntervalFrames) :
    Admitted plain (busyRecords count) ∧
      (busyActions count).foldl (Store.act plain) (filled plain []) =
        filled plain (busyRecords count) := by
  induction count with
  | zero => exact ⟨.nil, rfl⟩
  | succ count ih =>
    obtain ⟨hadmitted, hfilled⟩ := ih (by omega)
    have hnew : (indexFor plain (busyRecords count)).policies.get (tenantName count) = none := by
      refine policies_get_of_countP hadmitted (countP_busyRecords ?_)
      intro earlier hearlier hsame
      have hlength := congrArg String.length hsame
      simp only [tenantName, String.length_ofList, List.length_replicate] at hlength
      omega
    have happly : (Operation.initPolicy (tenantName count) "" 0 "").apply
        (indexFor plain (busyRecords count)) = .ok (some (busyPolicy count), .done) := by
      simp [Operation.apply, initPolicy, hnew, busyPolicy]
    have hlength : (busyRecords count).length = count := by simp [busyRecords]
    have hrecords : busyRecords (count + 1) = busyRecords count ++ [busyPolicy count] := by
      simp [busyRecords, List.range_succ]
    have hactions : busyActions (count + 1) =
        busyActions count ++ [.transact 0 (.initPolicy (tenantName count) "" 0 "")] := by
      simp [busyActions, List.range_succ]
    have hempty : (text.encode "").length = 1 := by decide +kernel
    unfold snapshotIntervalFrames at hfew
    have hwritable : Writable plain (busyPolicy count) := by
      refine writable_policy ?_
      rw [length_text_tenantName, hempty]
      unfold maxFrameBytes
      omega
    rw [hrecords, hactions, List.foldl_append, hfilled]
    refine ⟨hadmitted.snoc happly, ?_⟩
    exact act_filled (by rw [hlength]; exact hfew) happly hwritable

def reopenedActions : List Action :=
  .opens 0 :: (busyActions snapshotIntervalFrames ++ splitActions "x")

/-- Two handles on one store, no crash: each answers for its own policy of one tenant. -/
theorem reopened_split :
    Run (Store.Step plain) .empty (traceOf (Store.act plain) .empty reopenedActions)
        (reopenedActions.foldl (Store.act plain) .empty) ∧
      Split plain "x" (reopenedActions.foldl (Store.act plain) .empty) := by
  refine ⟨Run.ofActions _ _ _, ?_⟩
  have hmade : Store.act plain .empty (.opens 0) = filled plain [] := by decide +kernel
  obtain ⟨hadmitted, hfilled⟩ := busy_filled snapshotIntervalFrames (Nat.le_refl _)
  rw [reopenedActions, List.foldl_cons, hmade, List.foldl_append, hfilled]
  have hone : (text.encode "x").length = 5 := by decide +kernel
  have hgates : ∀ gates ∈ ["a", "b"], (text.encode gates).length = 5 := by decide +kernel
  refine split_of_filled lawful (by simp [busyRecords]) ?_ ?_ ?_ ?_
  · refine policies_get_of_countP hadmitted (countP_busyRecords ?_)
    intro earlier _ hsame
    have hletters := congrArg String.toList hsame
    rw [tenantName, String.toList_ofList] at hletters
    have hmem : 'x' ∈ List.replicate earlier 'a' := by
      rw [hletters]
      decide
    exact absurd (List.eq_of_mem_replicate hmem) (by decide)
  · intro gates hmem
    refine writable_policy ?_
    rw [hone, hgates gates hmem]
    decide
  · rw [length_archived_policy, length_archived_policy, hgates "a" (by simp),
      hgates "b" (by simp)]
  · rw [length_archived_policy, hone, hgates "b" (by simp)]
    have hmany := @length_le_layout plain (busyRecords snapshotIntervalFrames)
      (genesisHead plain)
    rw [fileOf, List.length_append]
    have hlength : (busyRecords snapshotIntervalFrames).length = 256 := by simp [busyRecords]; rfl
    rw [hlength] at hmany
    have hframed : framedLen (5 + 5 + 21) = 67 := by decide
    rw [hframed]
    omega

end PlainWire

end LogicalWorks.Tenant
