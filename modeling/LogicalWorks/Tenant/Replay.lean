import LogicalWorks.Tenant.Record

/-! Reading the tenant store's file into the index: the next frame, the drain of the frames
behind a length, the full replay, and the refresh that trims a torn tail.  What a read moves
and folds before it fails stays moved and folded. -/
namespace LogicalWorks.Tenant

open Journal LogicalWorks.Task

structure Framed where
  stored : Stored
  head : Digest
  deriving DecidableEq, Repr

def nextFrame (wire : Wire) (file : PositionedFile) (place : Nat) (previous : Digest) :
    Except TenantStoreError (Option Framed) × PositionedFile :=
  match readPrefix file.unread with
  | .eof | .torn => (.ok none, (file.readFull lengthBytes).2)
  | .full =>
    let declared := declaredLength (file.unread.take lengthBytes)
    let file := file.advance lengthBytes
    if isPossibleLength declared maxFrameBytes then
      match file.readFull declared with
      | (none, file) => (.ok none, file)
      | (some payload, file) =>
        match file.readFull headBytes with
        | (none, file) => (.ok none, file)
        | (some head, file) =>
          match wire.fromBytes payload with
          | none => (.error (.corrupt place), file)
          | some stored =>
            if isKnownKind stored.kind = false then (.error (.corrupt place), file)
            else if stored.headFrom wire previous payload ≠ Digest.fromBytes head then
              (.error (.corrupt place), file)
            else (.ok (some ⟨stored, Digest.fromBytes head⟩), file)
    else (.error (.corrupt place), file)

def header : Bytes := storeMagic.set versionByte storeFormat

def checkHeader (header : Bytes) : Except TenantStoreError Unit :=
  if header.take versionByte ≠ storeMagic.take versionByte then .error .notAStore
  else
    let found := header.getD versionByte 0
    if found = storeFormat then .ok () else .error (.formatVersion found storeFormat)

def frameLenOf (wire : Wire) (stored : Stored) (place : Nat) : Except TenantStoreError Nat :=
  match wire.toBytes stored with
  | none => .error (.corrupt place)
  | some bytes => .ok (framedLen bytes.length)

/-- Fold every whole frame from the position until the length seen when the drain began, or a
torn tail.  Each frame has more than one byte, so that length is fuel enough. -/
def drain (wire : Wire) (total : Nat) : (fuel : Nat) → PositionedFile → Index → Digest →
    Except TenantStoreError Digest × PositionedFile × Index
  | 0, file, index, previous => (.ok previous, file, index)
  | fuel + 1, file, index, previous =>
    if index.committed < total then
      match nextFrame wire file index.frames previous with
      | (.error refusal, file) => (.error refusal, file, index)
      | (.ok none, file) => (.ok previous, file, index)
      | (.ok (some framed), file) =>
        match frameLenOf wire framed.stored index.frames with
        | .error refusal => (.error refusal, file, index)
        | .ok advance =>
          let folded := fold index framed.stored
          drain wire total fuel file
            { folded with
              committed := folded.committed + advance
              tail := framed.head
              frames := folded.frames + 1 } framed.head
    else (.ok previous, file, index)

/-- Read every committed frame and fold the index it implies, from the start. -/
def fullReplay (wire : Wire) (file : PositionedFile) (index : Index) :
    Except TenantStoreError Unit × PositionedFile × Index :=
  let total := file.len
  match (file.seek 0).readFull headerLen with
  | (none, file) => (.error .notAStore, file, index)
  | (some header, file) =>
    match checkHeader header with
    | .error refusal => (.error refusal, file, index)
    | .ok () =>
      match drain wire total (total + 1) file (.fresh wire) (genesisHead wire) with
      | (.error refusal, file, index) => (.error refusal, file, index)
      | (.ok _, file, index) => (.ok (), file, index)

def trimToCommitted (file : PositionedFile) (index : Index) : PositionedFile :=
  if file.len ≠ index.committed then file.setLen index.committed else file

/-- Fold the frames appended since `committed`, and trim a torn tail.  Where nothing was
appended the handle is left where it stands. -/
def refresh (wire : Wire) (file : PositionedFile) (index : Index) :
    Except TenantStoreError Unit × PositionedFile × Index :=
  let total := file.len
  if total < index.committed then fullReplay wire file index
  else if total = index.committed then (.ok (), file, index)
  else
    match drain wire total (total + 1) (file.seek index.committed) index index.tail with
    | (.error refusal, file, index) => (.error refusal, file, index)
    | (.ok _, file, index) => (.ok (), trimToCommitted file index, index)

section

variable (wire : Wire)

def archived (stored : Stored) : Bytes := (wire.toBytes stored).getD []

def frameBehind (previous : Digest) (stored : Stored) : Frame :=
  ⟨archived wire stored, stored.headFrom wire previous (archived wire stored)⟩

def layout (previous : Digest) : List Stored → Bytes
  | [] => []
  | stored :: rest =>
    (frameBehind wire previous stored).bytes ++
      layout (frameBehind wire previous stored).head rest

def fileOf (records : List Stored) : Bytes := header ++ layout wire (genesisHead wire) records

def absorb (index : Index) (stored : Stored) : Index :=
  { fold index stored with
    committed := index.committed + framedLen (archived wire stored).length
    tail := stored.headFrom wire index.tail (archived wire stored)
    frames := index.frames + 1 }

def indexFor (records : List Stored) : Index := records.foldl (absorb wire) (.fresh wire)

/-- A record this build writes: of a known kind, and archived to a size the ceiling allows. -/
def Writable (stored : Stored) : Prop :=
  isKnownKind stored.kind = true ∧ ∃ payload, wire.toBytes stored = some payload ∧
    isPossibleLength payload.length maxFrameBytes = true ∧ payload.length < 2 ^ 32

end

variable {wire : Wire}

@[simp] theorem committed_fold (index : Index) (stored : Stored) :
    (fold index stored).committed = index.committed := by
  unfold fold
  split
  · rfl
  · split
    · rfl
    · split
      · rfl
      · rfl

@[simp] theorem frames_fold (index : Index) (stored : Stored) :
    (fold index stored).frames = index.frames := by
  unfold fold
  split
  · rfl
  · split
    · rfl
    · split
      · rfl
      · rfl

@[simp] theorem tail_absorb (index : Index) (stored : Stored) :
    (absorb wire index stored).tail = (frameBehind wire index.tail stored).head := rfl

theorem committed_absorb (index : Index) (stored : Stored) :
    (absorb wire index stored).committed =
      index.committed + (frameBehind wire index.tail stored).bytes.length := by
  rw [Frame.length_bytes]
  rfl

theorem committed_foldl (records : List Stored) (index : Index) :
    (records.foldl (absorb wire) index).committed =
      index.committed + (layout wire index.tail records).length := by
  induction records generalizing index with
  | nil => rfl
  | cons stored rest ih =>
    rw [List.foldl_cons, ih, committed_absorb, tail_absorb, layout, List.length_append,
      Nat.add_assoc]

theorem layout_append (left right : List Stored) (index : Index) :
    layout wire index.tail (left ++ right) =
      layout wire index.tail left ++ layout wire (left.foldl (absorb wire) index).tail right := by
  induction left generalizing index with
  | nil => rfl
  | cons stored rest ih =>
    rw [List.cons_append, layout, layout, List.foldl_cons, List.append_assoc]
    have hrest := ih (absorb wire index stored)
    rw [tail_absorb] at hrest
    rw [hrest]

theorem fileOf_append (left right : List Stored) :
    fileOf wire (left ++ right) =
      fileOf wire left ++ layout wire (indexFor wire left).tail right := by
  have hsplit := @layout_append wire left right (.fresh wire)
  change header ++ layout wire (Index.fresh wire).tail (left ++ right) = _
  rw [hsplit, ← List.append_assoc]
  rfl

theorem length_header : header.length = headerLen := by decide +kernel

theorem committed_indexFor (records : List Stored) :
    (indexFor wire records).committed = (fileOf wire records).length := by
  unfold indexFor
  rw [committed_foldl, fileOf, List.length_append, length_header]
  rfl

theorem indexFor_append (left right : List Stored) :
    indexFor wire (left ++ right) = right.foldl (absorb wire) (indexFor wire left) :=
  List.foldl_append

theorem Writable.fits {stored : Stored} (h : Writable wire stored) (previous : Digest) :
    (frameBehind wire previous stored).Fits maxFrameBytes := by
  obtain ⟨-, payload, harchive, hpossible, hroom⟩ := h
  unfold Frame.Fits frameBehind archived
  simp only [harchive, Option.getD_some]
  exact ⟨hpossible, hroom⟩

theorem nextFrame_written (lawful : wire.Lawful) {stored : Stored} (hwritable : Writable wire stored)
    {file : PositionedFile} {place : Nat} {previous : Digest} {rest : Bytes}
    (hunread : file.unread = (frameBehind wire previous stored).bytes ++ rest) :
    nextFrame wire file place previous =
      (.ok (some ⟨stored, (frameBehind wire previous stored).head⟩),
        file.advance (frameBehind wire previous stored).bytes.length) := by
  have hfits := hwritable.fits previous
  obtain ⟨hkind, payload, harchive, -, -⟩ := hwritable
  obtain ⟨hfull, htake, behind, hpayload, hhead⟩ := reads_of_frame hunread
  have hdecode : wire.fromBytes (frameBehind wire previous stored).payload = some stored := by
    refine lawful.record_roundTrip ?_
    simp only [frameBehind, archived, harchive, Option.getD_some]
  unfold nextFrame
  rw [hfull]
  simp only [htake, declaredLength_of_fits hfits, hfits.1, if_true, hpayload, hhead,
    Digest.fromBytes_bytes, hdecode, hkind]
  rw [if_neg (by decide), if_neg (fun h => h rfl)]

theorem nextFrame_cut {frame : Frame} {cut : Bytes} {file : PositionedFile} {place : Nat}
    {previous : Digest} (hfits : frame.Fits maxFrameBytes) (hunread : file.unread = cut)
    (hcut : cut <+: frame.bytes) (hshort : cut.length < frame.bytes.length)
    (hposition : file.position ≤ file.len) :
    nextFrame wire file place previous = (.ok none, file.seek file.len) := by
  unfold nextFrame
  rcases reads_of_cut hunread hcut hshort hposition with
    ⟨hkind, hread⟩ | ⟨hfull, htake, hmissing | ⟨payload, behind, hpayload, hmissing⟩⟩
  · cases hprefix : readPrefix file.unread with
    | full => exact absurd hprefix hkind
    | eof => rw [hread]
    | torn => rw [hread]
  · rw [hfull]
    simp only [htake, declaredLength_of_fits hfits, hfits.1, if_true, hmissing]
  · rw [hfull]
    simp only [htake, declaredLength_of_fits hfits, hfits.1, if_true, hpayload, hmissing]

theorem frameLenOf_written {stored : Stored} (hwritable : Writable wire stored) (place : Nat) :
    frameLenOf wire stored place = .ok (framedLen (archived wire stored).length) := by
  obtain ⟨-, payload, harchive, -, -⟩ := hwritable
  simp only [frameLenOf, archived, harchive, Option.getD_some]

theorem drain_records (lawful : wire.Lawful) {total : Nat} (records : List Stored) :
    ∀ {fuel : Nat} {file : PositionedFile} {index : Index} {rest : Bytes},
      (∀ stored ∈ records, Writable wire stored) →
      file.unread = layout wire index.tail records ++ rest →
      index.committed + (layout wire index.tail records).length ≤ total →
      drain wire total (fuel + records.length) file index index.tail =
        drain wire total fuel (file.advance (layout wire index.tail records).length)
          (records.foldl (absorb wire) index) (records.foldl (absorb wire) index).tail := by
  induction records with
  | nil =>
    intro fuel file index rest _ _ _
    rfl
  | cons stored others ih =>
    intro fuel file index rest hwritable hunread htotal
    have hmine := hwritable stored List.mem_cons_self
    rw [layout, List.append_assoc] at hunread
    rw [layout, List.length_append] at htotal
    have hsome : index.committed < total := by
      rw [Frame.length_bytes, framedLen] at htotal
      unfold headBytes at htotal
      omega
    have habsorb : ({ fold index stored with
        committed := (fold index stored).committed + framedLen (archived wire stored).length
        tail := (frameBehind wire index.tail stored).head
        frames := (fold index stored).frames + 1 } : Index) = absorb wire index stored := by
      rw [committed_fold, frames_fold]
      rfl
    conv => lhs; rw [List.length_cons, ← Nat.add_assoc]; unfold drain
    rw [if_pos hsome, nextFrame_written lawful hmine hunread]
    simp only [frameLenOf_written hmine, habsorb]
    have hnext := PositionedFile.unread_advance_append hunread
    have hrest := @ih fuel (file.advance (frameBehind wire index.tail stored).bytes.length)
      (absorb wire index stored) rest
      (fun other hother => hwritable other (List.mem_cons_of_mem _ hother)) hnext
      (by rw [committed_absorb, tail_absorb, Nat.add_assoc]; exact htotal)
    rw [tail_absorb] at hrest
    rw [hrest, PositionedFile.advance_advance, layout, List.length_append]
    rfl

theorem drain_end {total fuel : Nat} {file : PositionedFile} {index : Index} {previous : Digest}
    (h : total ≤ index.committed) :
    drain wire total fuel file index previous = (.ok previous, file, index) := by
  cases fuel with
  | zero => rfl
  | succ fuel =>
    unfold drain
    rw [if_neg (Nat.not_lt_of_le h)]

theorem length_le_layout (records : List Stored) (previous : Digest) :
    records.length ≤ (layout wire previous records).length := by
  induction records generalizing previous with
  | nil => exact Nat.le_refl 0
  | cons stored rest ih =>
    have hrest := ih (frameBehind wire previous stored).head
    rw [layout, List.length_append, Frame.length_bytes, framedLen, List.length_cons]
    unfold headBytes
    omega

/-- A drain from behind some of a file's records folds the rest, and leaves the handle at the
end of the file. -/
theorem drain_file (lawful : wire.Lawful) {before after : List Stored} {cut : Bytes}
    {file : PositionedFile} (hwritable : ∀ stored ∈ before ++ after, Writable wire stored)
    (hcut : Format.Cut maxFrameBytes cut)
    (hbytes : file.bytes = fileOf wire (before ++ after) ++ cut)
    (hposition : file.position = (fileOf wire before).length) :
    drain wire file.len (file.len + 1) file (indexFor wire before) (indexFor wire before).tail =
      (.ok (indexFor wire (before ++ after)).tail, file.seek file.len,
        indexFor wire (before ++ after)) := by
  have hunread : file.unread = layout wire (indexFor wire before).tail after ++ cut := by
    refine PositionedFile.unread_of_split ?_ hposition
    rw [hbytes, fileOf_append, List.append_assoc]
  have hcommitted := @committed_indexFor wire before
  have hlength : file.len = (indexFor wire before).committed +
      (layout wire (indexFor wire before).tail after).length + cut.length := by
    rw [PositionedFile.len, hbytes, fileOf_append, List.length_append, List.length_append,
      hcommitted]
  have hfew := @length_le_layout wire after (indexFor wire before).tail
  have hfuel : file.len + 1 = file.len - after.length + 1 + after.length := by omega
  rw [hfuel, drain_records lawful after
    (fun stored hstored => hwritable stored (List.mem_append_right _ hstored)) hunread (by omega),
    ← indexFor_append]
  have hall := @committed_indexFor wire (before ++ after)
  rw [fileOf_append, List.length_append, ← hcommitted] at hall
  cases cut with
  | nil =>
    rw [List.length_nil, Nat.add_zero] at hlength
    rw [drain_end (by omega)]
    have hend : file.position + (layout wire (indexFor wire before).tail after).length =
        file.len := by omega
    rw [PositionedFile.advance, hend]
    rfl
  | cons first others =>
    obtain ⟨frame, hfits, hahead, hshort⟩ := hcut
    have hbehind := PositionedFile.unread_advance_append hunread
    have hnext := @nextFrame_cut wire frame _ _ (indexFor wire (before ++ after)).frames
      (indexFor wire (before ++ after)).tail hfits hbehind hahead hshort (by
        rw [PositionedFile.position_advance, PositionedFile.len, PositionedFile.bytes_advance]
        rw [PositionedFile.len] at hlength
        omega)
    rw [List.length_cons] at hlength
    unfold drain
    rw [if_pos (by omega), hnext]
    rfl

theorem checkHeader_header : checkHeader header = .ok () := by decide +kernel

theorem fullReplay_file (lawful : wire.Lawful) {records : List Stored} {cut : Bytes}
    {file : PositionedFile} {index : Index}
    (hwritable : ∀ stored ∈ records, Writable wire stored)
    (hcut : Format.Cut maxFrameBytes cut) (hbytes : file.bytes = fileOf wire records ++ cut) :
    fullReplay wire file index = (.ok (), file.seek file.len, indexFor wire records) := by
  have hstart : (file.seek 0).unread = header ++ (layout wire (genesisHead wire) records ++ cut) := by
    rw [← List.append_assoc]
    exact hbytes
  have hheader := PositionedFile.readFull_append hstart
  rw [length_header] at hheader
  have hdrain := @drain_file wire lawful [] records cut ((file.seek 0).advance headerLen)
    hwritable hcut hbytes (by
      rw [PositionedFile.position_advance, PositionedFile.position_seek, Nat.zero_add, fileOf,
        layout, List.append_nil, length_header])
  unfold fullReplay
  simp only [hheader, checkHeader_header]
  change drain wire file.len (file.len + 1) _ (.fresh wire) (genesisHead wire) = _ at hdrain
  rw [hdrain]
  rfl

theorem trimToCommitted_file {records : List Stored} {cut : Bytes} {file : PositionedFile}
    (hbytes : file.bytes = fileOf wire records ++ cut) :
    trimToCommitted file (indexFor wire records) = ⟨fileOf wire records, file.position⟩ := by
  unfold trimToCommitted
  rw [committed_indexFor]
  split
  · exact congrArg (fun bytes => (⟨bytes, file.position⟩ : PositionedFile))
      (PositionedFile.setLen_append hbytes)
  · rename_i hsame
    rw [not_not, PositionedFile.len, hbytes, List.length_append] at hsame
    have hnil : cut = [] := List.length_eq_zero_iff.mp (by omega)
    rw [hnil, List.append_nil] at hbytes
    rw [← hbytes]

/-- A refresh of an index of a file's first records brings it to all of them, and leaves the
file without a torn tail.  The handle moves only where something was appended. -/
theorem refresh_file (lawful : wire.Lawful) {before after : List Stored} {cut : Bytes}
    {file : PositionedFile} (hwritable : ∀ stored ∈ before ++ after, Writable wire stored)
    (hcut : Format.Cut maxFrameBytes cut)
    (hbytes : file.bytes = fileOf wire (before ++ after) ++ cut) :
    refresh wire file (indexFor wire before) = (.ok (),
      ⟨fileOf wire (before ++ after),
        if file.len = (indexFor wire before).committed then file.position else file.len⟩,
      indexFor wire (before ++ after)) := by
  have hcommitted := @committed_indexFor wire before
  have hlength : file.len = (indexFor wire before).committed +
      (layout wire (indexFor wire before).tail after).length + cut.length := by
    rw [PositionedFile.len, hbytes, fileOf_append, List.length_append, List.length_append,
      hcommitted]
  unfold refresh
  simp only []
  rw [if_neg (by omega)]
  by_cases hsame : file.len = (indexFor wire before).committed
  · have hfew := @length_le_layout wire after (indexFor wire before).tail
    have hnone : after = [] := List.length_eq_zero_iff.mp (by omega)
    have hnil : cut = [] := List.length_eq_zero_iff.mp (by omega)
    rw [if_pos hsame, if_pos hsame]
    rw [hnone, hnil, List.append_nil, List.append_nil] at hbytes
    rw [hnone, List.append_nil, ← hbytes]
  · rw [if_neg hsame, if_neg hsame]
    have hdrain := @drain_file wire lawful before after cut
      (file.seek (indexFor wire before).committed) hwritable hcut hbytes hcommitted
    change drain wire file.len (file.len + 1) _ _ _ = _ at hdrain
    rw [hdrain]
    have htrim : trimToCommitted (file.seek file.len) (indexFor wire (before ++ after)) =
        ⟨fileOf wire (before ++ after), file.len⟩ := trimToCommitted_file hbytes
    exact congrArg (fun trimmed => (_, trimmed, _)) htrim

theorem cut_eq_nil_of_whole (lawful : wire.Lawful) {left right : List Stored} {cut : Bytes}
    (hleft : ∀ stored ∈ left, Writable wire stored)
    (hright : ∀ stored ∈ right, Writable wire stored) (hcut : Format.Cut maxFrameBytes cut)
    (h : fileOf wire left = fileOf wire right ++ cut) : cut = [] := by
  have hwhole := @fullReplay_file wire lawful left [] ⟨fileOf wire left, 0⟩ (.fresh wire) hleft
    (Format.cut_nil (by decide)) (List.append_nil _).symm
  have hother := @fullReplay_file wire lawful right cut ⟨fileOf wire left, 0⟩ (.fresh wire)
    hright hcut h
  rw [hwhole] at hother
  have hindex : indexFor wire left = indexFor wire right :=
    congrArg (fun result => result.2.2) hother
  have hlength := congrArg List.length h
  rw [List.length_append, ← committed_indexFor, ← committed_indexFor, hindex] at hlength
  exact List.length_eq_zero_iff.mp (by omega)

theorem fold_counted (index : Index) (stored : Stored) (committed frames : Nat) (tail : Digest) :
    fold { index with committed, tail, frames } stored =
      { fold index stored with committed, tail, frames } := by
  unfold fold
  split
  · rfl
  · split
    · rfl
    · cases hrun : index.runs.get stored.runId with
      | none => rfl
      | some entry => rfl

theorem frameOf_ok {stored : Stored} {previous head : Digest} {framed : Bytes}
    (hkind : isKnownKind stored.kind = true)
    (h : frameOf wire stored previous = .ok (framed, head)) :
    Writable wire stored ∧ framed = (frameBehind wire previous stored).bytes ∧
      head = (frameBehind wire previous stored).head := by
  obtain ⟨payload, harchive, hhead, hfits, hframed⟩ := frameRecord_fits h
  have hbytes : wire.toBytes stored = some payload := by
    cases hstored : wire.toBytes stored with
    | none =>
      simp only [hstored] at harchive
      cases harchive
    | some bytes =>
      simp only [hstored] at harchive
      cases harchive
      rfl
  have hsame : archived wire stored = payload := by
    rw [archived, hbytes, Option.getD_some]
  refine ⟨⟨hkind, payload, hbytes, hfits.1, hfits.2⟩, ?_, ?_⟩
  · rw [hframed, frameBehind, hsame, hhead]
  · rw [hhead, frameBehind, hsame]

end LogicalWorks.Tenant
