import LogicalWorks.Task.Ledger.RunLedger
import LogicalWorks.Task.Store.Live

/-! What is appended behind a torn tail that an open trimmed: the write position stays where
the replay left it, and the length it is behind becomes a hole. -/
namespace LogicalWorks.Task

open Journal

namespace Format

variable {R σ : Type} {format : Format R} {fold : σ → Framed R → σ}

def recordsOf (format : Format R) (bytes : Bytes) : Except StoreError (Replayed (List R)) :=
  match format.openLog (fun records read => records ++ [read.record]) [] bytes with
  | .error refusal => .error refusal
  | .ok (log, _) => .ok log

def logOf (format : Format R) (frames : List (Framed R)) : Replayed (List R) where
  state := frames.map Framed.record
  committed := (format.fileOf frames).length
  tail := lastHead format.genesis frames
  count := frames.length

/-- Appends one after the other: each frame follows the one before, passes the length fence,
and is written where the handle stands. -/
inductive Extends (format : Format R) :
    PositionedFile → Nat → Digest → List (Framed R) → PositionedFile → Prop
  | nil (file : PositionedFile) (committed : Nat) (tail : Digest) :
      Extends format file committed tail [] file
  | cons {file final : PositionedFile} {committed : Nat} {tail : Digest} {read : Framed R}
      {rest : List (Framed R)} (hchain : format.Chained tail [read])
      (hfence : file.len = committed)
      (hrest : Extends format (file.writeAll read.frame.bytes)
        (committed + read.frame.bytes.length) read.frame.head rest final) :
      Extends format file committed tail (read :: rest) final

theorem foldl_records (frames : List (Framed R)) (records : List R) :
    frames.foldl (fun records read => records ++ [read.record]) records =
      records ++ frames.map Framed.record := by
  induction frames generalizing records with
  | nil => simp
  | cons read rest ih => simp [ih]

theorem replayOf_records (frames : List (Framed R)) :
    format.replayOf (fun records read => records ++ [read.record]) [] frames =
      format.logOf frames := by
  unfold replayOf logOf
  rw [foldl_records, length_fileOf]
  rfl

theorem Extends.at_end {news : List (Framed R)} {final : PositionedFile} :
    ∀ {frames : List (Framed R)}, format.Chained format.genesis frames →
      format.Extends ⟨format.fileOf frames, (format.fileOf frames).length⟩
        (format.fileOf frames).length (lastHead format.genesis frames) news final →
      format.Chained format.genesis (frames ++ news) ∧
        final = ⟨format.fileOf (frames ++ news), (format.fileOf (frames ++ news)).length⟩ := by
  induction news with
  | nil =>
    intro frames hchain h
    cases h
    rw [List.append_nil]
    exact ⟨hchain, rfl⟩
  | cons read rest ih =>
    intro frames hchain h
    cases h with
    | cons hread hfence hrest =>
      rw [PositionedFile.writeAll_at_end rfl, ← List.length_append, ← fileOf_snoc] at hrest
      have hlast : lastHead format.genesis (frames ++ [read]) = read.frame.head := by
        simp [lastHead]
      rw [← hlast] at hrest
      rw [List.append_cons]
      exact ih (chained_append.mpr ⟨hchain, hread⟩) hrest

/-- Behind the committed bytes one append is written, with a hole before it, and the next is
refused by the fence. -/
theorem Extends.behind {file final : PositionedFile} {committed : Nat} {tail : Digest}
    {read : Framed R} {rest : List (Framed R)} (hbehind : file.len < file.position)
    (h : format.Extends file committed tail (read :: rest) final) :
    rest = [] ∧ format.Chained tail [read] ∧ ∃ hole, 0 < hole ∧
      final.bytes = file.bytes ++ (List.replicate hole 0 ++ read.frame.bytes) := by
  cases h with
  | cons hread hfence hrest =>
    have hwrite := @PositionedFile.writeAll_behind_end file _ (Frame.bytes_ne_nil read.frame)
      (Nat.le_of_lt hbehind)
    rw [hwrite] at hrest
    cases hrest with
    | nil =>
      refine ⟨rfl, hread, file.position - file.bytes.length, ?_, List.append_assoc _ _ _⟩
      exact Nat.sub_pos_of_lt hbehind
    | cons _ hagain _ =>
      simp only [PositionedFile.len, List.length_append, List.length_replicate] at *
      omega

/-- A file with a hole before its last frame is not read as the frames with that one behind
them. -/
theorem recordsOf_hole {frames : List (Framed R)} {read : Framed R} {hole : Nat}
    (lawful : format.Lawful) (hchain : format.Chained format.genesis frames)
    (hcount : frames.length ≤ format.maxRecords) (hfits : read.frame.Fits format.maxFrame)
    (hhole : 0 < hole) :
    format.recordsOf (format.fileOf frames ++ (List.replicate hole 0 ++ read.frame.bytes)) ≠
      .ok (format.logOf (frames ++ [read])) := by
  intro h
  generalize hbytes : format.fileOf frames ++ (List.replicate hole 0 ++ read.frame.bytes) =
    bytes at h
  have hsome : (⟨bytes, 0⟩ : PositionedFile).len ≠ 0 := by
    rw [← hbytes]
    exact len_fileOf_ne_zero lawful frames _
  unfold recordsOf openLog at h
  simp only [if_neg hsome] at h
  obtain ⟨fuel, hahead⟩ := @replayLog_ahead R _ format
    (fun records read => records ++ [read.record]) lawful [] frames ⟨bytes, 0⟩ _ hchain hcount
    hbytes.symm
  rw [hahead] at h
  cases hreplay : format.replayFrames (fun records read => records ++ [read.record])
      (⟨bytes, 0⟩ : PositionedFile).len (fuel + 1)
      (format.replayOf (fun records read => records ++ [read.record]) [] frames)
      ⟨bytes, (format.fileOf frames).length⟩ with
  | error refusal =>
    rw [hreplay] at h
    cases h
  | ok pair =>
    obtain ⟨log, after⟩ := pair
    rw [hreplay] at h
    simp only [Except.ok.injEq] at h
    obtain ⟨more, rest, hmore, hunread, hlog, -, -⟩ := replayFrames_sound _ hreplay
    rw [h, replayOf_records] at hlog
    -- what is read behind the old frames would be one frame as long as the one written
    have hrecords := congrArg Replayed.state hlog
    have hcommitted := congrArg Replayed.committed hlog
    simp only [logOf, Replayed.extend, foldl_records, List.map_append,
      List.append_cancel_left_eq] at hrecords
    simp only [logOf, Replayed.extend, fileOf_append, List.length_append, Nat.add_left_cancel_iff]
      at hcommitted
    obtain ⟨one, rfl⟩ : ∃ one, more = [one] := by
      rw [← List.length_eq_one_iff, ← @List.length_map _ _ more Framed.record, ← hrecords]
      rfl
    have hlength : one.frame.payload.length = read.frame.payload.length := by
      simp only [List.map_cons, List.map_nil, framesBytes_cons, framesBytes_nil, List.append_nil,
        Frame.length_bytes, framedLen] at hcommitted
      omega
    have hbehind : (⟨bytes, (format.fileOf frames).length⟩ : PositionedFile).unread =
        List.replicate hole 0 ++ read.frame.bytes := by
      rw [PositionedFile.unread, ← hbytes, List.drop_left]
    rw [hbehind, List.map_singleton, framesBytes_cons, framesBytes_nil, List.append_nil]
      at hunread
    exact frame_behind_hole hfits hhole hlength hunread

theorem recordsOf_fileOf_iff {frames : List (Framed R)} (lawful : format.Lawful)
    (hchain : format.Chained format.genesis frames) :
    format.recordsOf (format.fileOf frames) = .ok (format.logOf frames) ↔
      frames.length ≤ format.maxRecords := by
  unfold recordsOf
  constructor
  · intro h
    by_contra hmany
    rw [openLog_limit lawful hchain (Nat.lt_of_not_le hmany) (List.append_nil _).symm] at h
    cases h
  · intro hcount
    rw [openLog_fileOf lawful hchain hcount]
    simp only [replayOf_records]

/-- Appends behind a trimmed cut are read back exactly when nothing was cut off and the file
holds no more frames than the ceiling counts. -/
theorem recordsOf_extends_iff {frames news : List (Framed R)} {cut : Bytes}
    {final : PositionedFile} (lawful : format.Lawful)
    (hchain : format.Chained format.genesis frames) (hcount : frames.length ≤ format.maxRecords)
    (hnews : news ≠ []) (hextends : format.Extends
      ⟨format.fileOf frames, (format.fileOf frames).length + cut.length⟩
      (format.fileOf frames).length (lastHead format.genesis frames) news final) :
    format.recordsOf final.bytes = .ok (format.logOf (frames ++ news)) ↔
      cut = [] ∧ (frames ++ news).length ≤ format.maxRecords := by
  cases cut with
  | nil =>
    obtain ⟨hwhole, hfinal⟩ := Extends.at_end hchain hextends
    rw [hfinal, recordsOf_fileOf_iff lawful hwhole]
    simp
  | cons first others =>
    obtain ⟨read, rest, rfl⟩ := List.exists_cons_of_ne_nil hnews
    obtain ⟨rfl, hread, hole, hhole, hbytes⟩ :=
      Extends.behind (Nat.lt_add_of_pos_right (Nat.succ_pos others.length)) hextends
    obtain ⟨-, -, hfits, -⟩ := hread
    constructor
    · intro h
      rw [hbytes] at h
      exact absurd h (recordsOf_hole lawful hchain hcount hfits hhole)
    · rintro ⟨hnil, -⟩
      cases hnil

theorem openLog_torn {frames : List (Framed R)} {cut : Bytes} {initial : σ} {log : Replayed σ}
    {file : PositionedFile} (lawful : format.Lawful)
    (hchain : format.Chained format.genesis frames) (hcut : Cut format.maxFrame cut)
    (h : format.openLog fold initial (format.fileOf frames ++ cut) = .ok (log, file)) :
    frames.length ≤ format.maxRecords ∧ log = format.replayOf fold initial frames ∧
      file = ⟨format.fileOf frames, (format.fileOf frames).length + cut.length⟩ := by
  have hcount : frames.length ≤ format.maxRecords := by
    by_contra hmany
    rw [openLog_limit lawful hchain (Nat.lt_of_not_le hmany) rfl] at h
    cases h
  obtain ⟨frame, hfits, hahead, hshort⟩ := hcut
  rcases @openLog_cut R σ format fold lawful initial frames frame cut hchain hcount hfits hahead
    hshort with ⟨refusal, hrefused⟩ | hopened
  · rw [hrefused] at h
    cases h
  · rw [hopened] at h
    cases h
    exact ⟨hcount, rfl, rfl⟩

end Format

namespace Store

open Owner.Batch

variable {wire : Wire}

def acceptRecord (wire : Wire) (held : Disk × Index) (staged : Staged) : Option (Disk × Index) :=
  match appendOnOwner wire staged .none held.1 held.2 with
  | (.ok (.unsynced .recorded _ settle), disk, index) => some (disk.syncAll, settle index)
  | _ => none

def Reopens (wire : Wire) (bytes : Bytes) (index : Index) (records : List Stored) : Prop :=
  (∃ file, openImpl wire bytes = .ok (index, file)) ∧
    (format wire).recordsOf bytes = .ok ⟨records, index.committed, index.tail, records.length⟩

theorem indexFor_snoc (frames : List (Framed Stored)) (read : Framed Stored) :
    indexFor wire (frames ++ [read]) =
      { runs := insertStep (indexFor wire frames).runs read.record
        committed := (indexFor wire frames).committed + read.frame.bytes.length
        tail := read.frame.head
        pending := countApproval wire (indexFor wire frames).pending read.record.tenant
          read.record.value
        staged := .empty } := by
  simp [indexFor, indexOf, Format.replayOf, foldStored, framesBytes, Nat.add_assoc]

theorem settle_stage {frames : List (Framed Stored)} {staged : Staged} {write : Write}
    {read : Framed Stored} (hrecord : read.record = staged.record)
    (hhead : write.head = read.frame.head)
    (hnext : write.next = (indexFor wire frames).committed + read.frame.bytes.length) :
    settle wire staged.record ((indexFor wire frames).stage staged write) =
      indexFor wire (frames ++ [read]) := by
  have hempty : ((indexFor wire frames).stage staged write).staged.remove
      (staged.record.run, hexOf staged.record.key) = .empty := by
    rw [staged.record_key]
    exact Table.remove_insert_of_none _ rfl
  unfold settle
  rw [hempty, indexFor_snoc, hrecord, ← hnext, ← hhead]
  rfl

theorem acceptRecord_some (lawful : wire.Lawful) {frames : List (Framed Stored)} {disk next : Disk}
    {after : Index} {staged : Staged}
    (h : acceptRecord wire (disk, indexFor wire frames) staged = some (next, after)) :
    ∃ read : Framed Stored, read.record = staged.record ∧
      (format wire).Chained (lastHead (format wire).genesis frames) [read] ∧
      disk.file.len = ((format wire).fileOf frames).length ∧
      next.file = disk.file.writeAll read.frame.bytes ∧
      after = indexFor wire (frames ++ [read]) := by
  have hstep := appendStep wire staged .none disk (indexFor wire frames)
  unfold acceptRecord at h
  simp only [] at h
  generalize appendOnOwner wire staged .none disk (indexFor wire frames) = result at hstep h
  cases hstep with
  | refused cause => cases h
  | owned answer howned hfault => cases h
  | repeated answer howned hstaged hfault => cases h
  | torn write moved cause howned hstaged hwrite hfault => cases hfault
  | written write howned hstaged hwrite hfault =>
    cases h
    obtain ⟨read, hrecord, hframed, hhead, hchain⟩ := prepareWrite_framed lawful hwrite
    obtain ⟨-, hnext, -, hfence⟩ := prepareWrite_ok hwrite
    refine ⟨read, hrecord, hchain, ?_, ?_, settle_stage hrecord hhead ?_⟩
    · rw [hfence, Format.length_fileOf]
      rfl
    · rw [hframed]
      rfl
    · rw [hnext, hframed]

theorem acceptRecord_foldlM (lawful : wire.Lawful) {final : Disk} {after : Index}
    {requests : List Staged} : ∀ {frames : List (Framed Stored)} {disk : Disk},
      requests.foldlM (acceptRecord wire) (disk, indexFor wire frames) = some (final, after) →
      ∃ news : List (Framed Stored), news.map Framed.record = requests.map Staged.record ∧
        (format wire).Extends disk.file ((format wire).fileOf frames).length
          (lastHead (format wire).genesis frames) news final.file ∧
        after = indexFor wire (frames ++ news) := by
  induction requests with
  | nil =>
    intro frames disk h
    cases h
    exact ⟨[], rfl, .nil _ _ _, by rw [List.append_nil]⟩
  | cons staged rest ih =>
    intro frames disk h
    rw [List.foldlM_cons] at h
    obtain ⟨⟨next, index⟩, hone, hrest⟩ := Option.bind_eq_some_iff.mp h
    obtain ⟨read, hrecord, hchain, hfence, hnext, rfl⟩ := acceptRecord_some lawful hone
    obtain ⟨news, hnews, hextends, hafter⟩ := ih hrest
    refine ⟨read :: news, by rw [List.map_cons, hrecord, hnews, List.map_cons], ?_, ?_⟩
    · refine .cons hchain hfence ?_
      rw [← hnext]
      rw [Format.fileOf_snoc, List.length_append] at hextends
      have hlast : lastHead (format wire).genesis (frames ++ [read]) = read.frame.head := by
        simp [lastHead]
      rw [hlast] at hextends
      exact hextends
    · rw [hafter, List.append_assoc, List.singleton_append]

/-- Records accepted behind a trimmed tail are all read back exactly when there was none, and
the file stays within what one replay reads. -/
theorem reopens_iff (lawful : wire.Lawful) {frames : List (Framed Stored)} {cut : Bytes}
    {index after : Index} {file : PositionedFile} {final : Disk} {synced : Bytes}
    {requests : List Staged} (hchain : (format wire).Chained (format wire).genesis frames)
    (hcut : Format.Cut maxRecordBytes cut)
    (hopen : openImpl wire ((format wire).fileOf frames ++ cut) = .ok (index, file))
    (hsome : requests ≠ [])
    (haccepted : requests.foldlM (acceptRecord wire) (⟨file, synced⟩, index) =
      some (final, after)) :
    Reopens wire final.file.bytes after
        (frames.map Framed.record ++ requests.map Staged.record) ↔
      cut = [] ∧ frames.length + requests.length ≤ maxRecordsPerRun := by
  unfold openImpl at hopen
  cases hlog : (format wire).openLog (foldStored wire) noRecords
      ((format wire).fileOf frames ++ cut) with
  | error refusal =>
    rw [hlog] at hopen
    cases hopen
  | ok pair =>
    obtain ⟨log, opened⟩ := pair
    rw [hlog] at hopen
    cases hopen
    obtain ⟨hcount, rfl, rfl⟩ := Format.openLog_torn (format_lawful lawful) hchain hcut hlog
    obtain ⟨news, hrecords, hextends, rfl⟩ := acceptRecord_foldlM lawful haccepted
    have hlength : news.length = requests.length := by
      have := congrArg List.length hrecords
      simpa using this
    have hnews : news ≠ [] := by
      rintro rfl
      exact hsome (List.length_eq_zero_iff.mp hlength.symm)
    have hiff := Format.recordsOf_extends_iff (format_lawful lawful) hchain hcount hnews hextends
    have hread : (format wire).logOf (frames ++ news) =
        ⟨frames.map Framed.record ++ requests.map Staged.record,
          (indexFor wire (frames ++ news)).committed, (indexFor wire (frames ++ news)).tail,
          (frames.map Framed.record ++ requests.map Staged.record).length⟩ := by
      unfold Format.logOf
      rw [List.map_append, hrecords, Format.length_fileOf]
      simp [hlength, indexFor, indexOf, Format.replayOf, lastHead]
    have htotal : (frames ++ news).length = frames.length + requests.length := by
      rw [List.length_append, hlength]
    rw [hread, htotal] at hiff
    refine ⟨fun hreopens => hiff.mp hreopens.2, ?_⟩
    rintro ⟨rfl, hfew⟩
    obtain ⟨hwhole, hfinal⟩ := Format.Extends.at_end hchain hextends
    refine ⟨⟨final.file, ?_⟩, hiff.mpr ⟨rfl, hfew⟩⟩
    unfold openImpl
    rw [hfinal, Format.openLog_fileOf (format_lawful lawful) hwhole
      (by rw [htotal]; exact hfew)]
    rfl

end Store

namespace Ledger

open Owner.Batch

variable {wire : Wire}

def acceptCharge (wire : Wire) (held : PositionedFile × Index × List Entry) (asked : Asked) :
    Option (PositionedFile × Index × List Entry) :=
  match decideUnder held.2.1 asked.charge asked.ceilings,
    chargeOnOwner wire asked.charge asked.ceilings held.1 held.2.1 with
  | .ok (entry, _), (.ok (.committed _), file, index) => some (file, index, held.2.2 ++ [entry])
  | _, _ => none

def Reopens (wire : Wire) (bytes : Bytes) (index : Index) (entries : List Entry) : Prop :=
  (∃ file, openLedger wire bytes = .ok (index, file)) ∧
    (format wire).recordsOf bytes = .ok ⟨entries, index.committed, index.tail, entries.length⟩

theorem acceptCharge_some (lawful : wire.Lawful) {frames : List (Framed Entry)}
    {file next : PositionedFile} {after : Index} {asked : Asked} {entries later : List Entry}
    (h : acceptCharge wire (file, indexFor wire frames, entries) asked =
      some (next, after, later)) :
    ∃ read : Framed Entry, later = entries ++ [read.record] ∧
      (format wire).Chained (lastHead (format wire).genesis frames) [read] ∧
      file.len = ((format wire).fileOf frames).length ∧
      next = file.writeAll read.frame.bytes ∧ after = indexFor wire (frames ++ [read]) := by
  have hstep := chargeStep wire asked.charge asked.ceilings file (indexFor wire frames)
  unfold acceptCharge at h
  simp only [] at h
  generalize chargeOnOwner wire asked.charge asked.ceilings file (indexFor wire frames) = result
    at hstep h
  cases hstep with
  | refused refusal hdecide =>
    simp only [hdecide] at h
    cases h
  | stopped entry control cause hdecide hwrite =>
    simp only [hdecide] at h
    cases h
  | charged entry control write hdecide hwrite =>
    simp only [hdecide] at h
    cases h
    obtain ⟨read, hrecord, hframed, hhead, hchain, hnext, -, hfence⟩ :=
      prepareEntry_ok lawful hwrite
    refine ⟨read, by rw [hrecord], hchain, ?_, by rw [hframed], ?_⟩
    · rw [hfence, Format.length_fileOf]
      rfl
    · rw [indexFor_snoc, hrecord, hnext, hframed, hhead]

theorem acceptCharge_foldlM (lawful : wire.Lawful) {final : PositionedFile} {after : Index}
    {requests : List Asked} {later : List Entry} :
    ∀ {frames : List (Framed Entry)} {file : PositionedFile} {entries : List Entry},
      requests.foldlM (acceptCharge wire) (file, indexFor wire frames, entries) =
        some (final, after, later) →
      ∃ news : List (Framed Entry), later = entries ++ news.map Framed.record ∧
        news.length = requests.length ∧
        (format wire).Extends file ((format wire).fileOf frames).length
          (lastHead (format wire).genesis frames) news final ∧
        after = indexFor wire (frames ++ news) := by
  induction requests with
  | nil =>
    intro frames file entries h
    cases h
    exact ⟨[], by simp, rfl, .nil _ _ _, by rw [List.append_nil]⟩
  | cons asked rest ih =>
    intro frames file entries h
    rw [List.foldlM_cons] at h
    obtain ⟨⟨next, index, held⟩, hone, hrest⟩ := Option.bind_eq_some_iff.mp h
    obtain ⟨read, rfl, hchain, hfence, rfl, rfl⟩ := acceptCharge_some lawful hone
    obtain ⟨news, rfl, hlength, hextends, hafter⟩ := ih hrest
    refine ⟨read :: news, by simp, by simp [hlength], ?_, ?_⟩
    · refine .cons hchain hfence ?_
      rw [Format.fileOf_snoc, List.length_append] at hextends
      have hlast : lastHead (format wire).genesis (frames ++ [read]) = read.frame.head := by
        simp [lastHead]
      rw [hlast] at hextends
      exact hextends
    · rw [hafter, List.append_assoc, List.singleton_append]

/-- Charges accepted behind a trimmed tail are all read back exactly when there was none, and
the file stays within what one replay reads. -/
theorem reopens_iff (lawful : wire.Lawful) {frames : List (Framed Entry)} {cut : Bytes}
    {index after : Index} {file final : PositionedFile} {requests : List Asked}
    {entries : List Entry} (hchain : (format wire).Chained (format wire).genesis frames)
    (hcut : Format.Cut maxLedgerRecordBytes cut)
    (hopen : openLedger wire ((format wire).fileOf frames ++ cut) = .ok (index, file))
    (hsome : requests ≠ [])
    (haccepted : requests.foldlM (acceptCharge wire) (file, index, []) =
      some (final, after, entries)) :
    Reopens wire final.bytes after (frames.map Framed.record ++ entries) ↔
      cut = [] ∧ frames.length + requests.length ≤ maxLedgerRecordsPerRun := by
  unfold openLedger at hopen
  cases hlog : (format wire).openLog foldEntry .empty ((format wire).fileOf frames ++ cut) with
  | error refusal =>
    rw [hlog] at hopen
    cases hopen
  | ok pair =>
    obtain ⟨log, opened⟩ := pair
    rw [hlog] at hopen
    cases hopen
    obtain ⟨hcount, rfl, rfl⟩ := Format.openLog_torn (format_lawful lawful) hchain hcut hlog
    obtain ⟨news, rfl, hlength, hextends, rfl⟩ := acceptCharge_foldlM lawful haccepted
    have hnews : news ≠ [] := by
      rintro rfl
      exact hsome (List.length_eq_zero_iff.mp hlength.symm)
    have hiff := Format.recordsOf_extends_iff (format_lawful lawful) hchain hcount hnews hextends
    have hread : (format wire).logOf (frames ++ news) =
        ⟨frames.map Framed.record ++ ([] ++ news.map Framed.record),
          (indexFor wire (frames ++ news)).committed, (indexFor wire (frames ++ news)).tail,
          (frames.map Framed.record ++ ([] ++ news.map Framed.record)).length⟩ := by
      unfold Format.logOf
      rw [List.map_append, Format.length_fileOf]
      simp [indexFor, indexOf, Format.replayOf, lastHead]
    have htotal : (frames ++ news).length = frames.length + requests.length := by
      rw [List.length_append, hlength]
    rw [hread, htotal] at hiff
    refine ⟨fun hreopens => hiff.mp hreopens.2, ?_⟩
    rintro ⟨rfl, hfew⟩
    obtain ⟨hwhole, hfinal⟩ := Format.Extends.at_end hchain hextends
    refine ⟨⟨final, ?_⟩, hiff.mpr ⟨rfl, hfew⟩⟩
    unfold openLedger
    rw [hfinal, Format.openLog_fileOf (format_lawful lawful) hwhole
      (by rw [htotal]; exact hfew)]
    rfl

end Ledger

/-- What is accepted behind a torn tail that an open trimmed, in the run store and in the
ledger, is read back behind the earlier records exactly when nothing was torn off, and the file
stays within what one replay reads. -/
theorem accepted_behind_trim_iff {storeWire : Store.Wire} {ledgerWire : Ledger.Wire}
    (storeLawful : storeWire.Lawful) (ledgerLawful : ledgerWire.Lawful) :
    (∀ {frames : List (Framed Store.Stored)} {cut synced : Bytes} {index after : Store.Index}
        {file : PositionedFile} {final : Store.Disk} {requests : List Store.Staged},
      (Store.format storeWire).Chained (Store.format storeWire).genesis frames →
      Format.Cut Store.maxRecordBytes cut →
      Store.openImpl storeWire ((Store.format storeWire).fileOf frames ++ cut) =
        .ok (index, file) →
      requests ≠ [] →
      requests.foldlM (Store.acceptRecord storeWire) (⟨file, synced⟩, index) =
        some (final, after) →
      (Store.Reopens storeWire final.file.bytes after
          (frames.map Framed.record ++ requests.map Store.Staged.record) ↔
        cut = [] ∧ frames.length + requests.length ≤ Store.maxRecordsPerRun)) ∧
    (∀ {frames : List (Framed Ledger.Entry)} {cut : Bytes} {index after : Ledger.Index}
        {file final : PositionedFile} {requests : List Ledger.Asked}
        {entries : List Ledger.Entry},
      (Ledger.format ledgerWire).Chained (Ledger.format ledgerWire).genesis frames →
      Format.Cut Ledger.maxLedgerRecordBytes cut →
      Ledger.openLedger ledgerWire ((Ledger.format ledgerWire).fileOf frames ++ cut) =
        .ok (index, file) →
      requests ≠ [] →
      requests.foldlM (Ledger.acceptCharge ledgerWire) (file, index, []) =
        some (final, after, entries) →
      (Ledger.Reopens ledgerWire final.bytes after (frames.map Framed.record ++ entries) ↔
        cut = [] ∧ frames.length + requests.length ≤ Ledger.maxLedgerRecordsPerRun)) := by
  constructor
  · intro frames cut synced index after file final requests hchain hcut hopen hsome haccepted
    exact Store.reopens_iff storeLawful hchain hcut hopen hsome haccepted
  · intro frames cut index after file final requests entries hchain hcut hopen hsome haccepted
    exact Ledger.reopens_iff ledgerLawful hchain hcut hopen hsome haccepted

namespace PlainWire

def recordedOn (bytes : Bytes) (requests : List Store.Staged) : Option Bytes :=
  match Store.openImpl Store.PlainWire.plain bytes with
  | .error _ => none
  | .ok (index, file) =>
    (requests.foldlM (Store.acceptRecord Store.PlainWire.plain) (⟨file, []⟩, index)).map
      fun held => held.1.file.bytes

def chargedOn (bytes : Bytes) (requests : List Ledger.Asked) : Option Bytes :=
  match Ledger.openLedger Ledger.PlainWire.plain bytes with
  | .error _ => none
  | .ok (index, file) =>
    (requests.foldlM (Ledger.acceptCharge Ledger.PlainWire.plain) (file, index, [])).map
      fun held => held.1.bytes

def record : Store.Staged := Store.PlainWire.request 1 "a" 0 [7]

theorem accepted_behind_header :
    (∃ final after, Store.Reopens Store.PlainWire.plain final after [record.record]) ∧
      ∃ final after entries, Ledger.Reopens Ledger.PlainWire.plain final after entries := by
  obtain ⟨onRecords, onEntries⟩ :=
    accepted_behind_trim_iff Store.PlainWire.lawful Ledger.PlainWire.lawful
  constructor
  · have hopen : Store.openImpl Store.PlainWire.plain
        ((Store.format Store.PlainWire.plain).fileOf [] ++ []) =
          .ok (Store.indexFor Store.PlainWire.plain [],
            ⟨(Store.format Store.PlainWire.plain).fileOf [], 16⟩) := by decide +kernel
    have haccepted : ([record].foldlM (Store.acceptRecord Store.PlainWire.plain)
        (⟨⟨(Store.format Store.PlainWire.plain).fileOf [], 16⟩, []⟩,
          Store.indexFor Store.PlainWire.plain [])).isSome = true := by decide +kernel
    obtain ⟨⟨final, after⟩, haccepted⟩ := Option.isSome_iff_exists.mp haccepted
    exact ⟨_, _, (@onRecords [] [] [] _ _ _ _ _ trivial (Format.cut_nil (by decide)) hopen (by decide)
      haccepted).mpr ⟨rfl, by decide⟩⟩
  · have hopen : Ledger.openLedger Ledger.PlainWire.plain
        ((Ledger.format Ledger.PlainWire.plain).fileOf [] ++ []) =
          .ok (Ledger.indexFor Ledger.PlainWire.plain [],
            ⟨(Ledger.format Ledger.PlainWire.plain).fileOf [], 17⟩) := by decide +kernel
    have haccepted : ([Ledger.PlainWire.again].foldlM
        (Ledger.acceptCharge Ledger.PlainWire.plain)
        (⟨(Ledger.format Ledger.PlainWire.plain).fileOf [], 17⟩,
          Ledger.indexFor Ledger.PlainWire.plain [], [])).isSome = true := by decide +kernel
    obtain ⟨⟨final, after, entries⟩, haccepted⟩ := Option.isSome_iff_exists.mp haccepted
    exact ⟨_, _, _, (@onEntries [] [] _ _ _ _ _ _ trivial (Format.cut_nil (by decide)) hopen (by decide)
      haccepted).mpr ⟨rfl, by decide⟩⟩

/-- One byte of a frame is left behind the header; what is accepted next is not read back. -/
theorem accepted_behind_tear :
    (Format.Cut Store.maxRecordBytes [0] ∧
      ((recordedOn ((Store.format Store.PlainWire.plain).fileOf [] ++ [0]) [record]).map
        fun bytes => Store.openImpl Store.PlainWire.plain bytes) =
          some (.error (.corrupt 0))) ∧
    Format.Cut Ledger.maxLedgerRecordBytes [0] ∧
      ((chargedOn ((Ledger.format Ledger.PlainWire.plain).fileOf [] ++ [0])
          [Ledger.PlainWire.again]).map
        fun bytes => Ledger.openLedger Ledger.PlainWire.plain bytes) =
          some (.error (.corrupt 0)) := by
  have hcut : ∀ maxFrame, 0 < maxFrame → Format.Cut maxFrame [0] := by
    intro maxFrame hpositive
    refine ⟨⟨[0], .fromBytes []⟩, ⟨isPossibleLength_iff.mpr ⟨Nat.one_pos, hpositive⟩, by decide⟩,
      ⟨_, rfl⟩, ?_⟩
    rw [Frame.length_bytes, framedLen, List.length_singleton]
    unfold headBytes
    omega
  refine ⟨⟨hcut _ (by decide), ?_⟩, hcut _ (by decide), ?_⟩
  · decide +kernel
  · decide +kernel

end PlainWire

end LogicalWorks.Task
