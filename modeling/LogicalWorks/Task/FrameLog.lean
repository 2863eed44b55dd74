import LogicalWorks.Journal.ReadRaw

/-! The framed log both task stores keep: a header, then one chained frame a record.  A
store says how its record is archived, chained and bounded; how the log is framed, read back
and repaired is the same for both. -/
namespace LogicalWorks.Task

open Journal

inductive StoreLimitKind where
  | recordBytes
  | records
  | storeBytes
  deriving DecidableEq, Repr

inductive StoreError where
  | limit (kind : StoreLimitKind) (requested limit : Nat)
  | storage (cause : String)
  | notAStore
  | formatVersion (found expected : UInt8)
  | corrupt (place : Nat)
  | encoding
  | foreignTenant (owner asked : String)
  deriving DecidableEq, Repr

structure Format (R : Type) where
  header : Bytes
  checkHeader : Option Bytes → Except StoreError Unit
  genesis : Digest
  archive : R → Option Bytes
  decode : Bytes → Option R
  headFrom : R → Digest → Digest
  maxFrame : Nat
  maxRecords : Nat

/-- What a store relies on: its own header passes its check, a header cut short does not, and
what was archived reads back. -/
structure Format.Lawful {R : Type} (format : Format R) : Prop where
  header_ne_nil : format.header ≠ []
  checkHeader_header : format.checkHeader (some format.header) = .ok ()
  checkHeader_none : format.checkHeader none ≠ .ok ()
  decode_archive : ∀ {record payload}, format.archive record = some payload →
    format.decode payload = some record

structure Framed (R : Type) where
  record : R
  frame : Frame
  deriving DecidableEq, Repr

/-- How far a replay has come: what the records folded to, the length they account for, the
head the next frame follows, and how many frames there were. -/
structure Replayed (σ : Type) where
  state : σ
  committed : Nat
  tail : Digest
  count : Nat
  deriving DecidableEq, Repr

namespace Format

variable {R σ : Type} (format : Format R)

def frame (record : R) (previous : Digest) : Except StoreError (Bytes × Digest) :=
  frameRecord record previous format.maxFrame
    (fun record =>
      match format.archive record with
      | some payload => .ok payload
      | none => .error .encoding)
    (fun record previous _ => format.headFrom record previous)
    (fun len => .limit .recordBytes len format.maxFrame)

def nextFrame (file : PositionedFile) (place offset : Nat) (previous : Digest) :
    Except StoreError (Option (Framed R)) × PositionedFile :=
  match readRaw file offset previous format.maxFrame .storage (.corrupt place)
      (fun previous payload =>
        (format.decode payload).map fun record => format.headFrom record previous) with
  | (.error refusal, file) => (.error refusal, file)
  | (.ok none, file) => (.ok none, file)
  | (.ok (some frame), file) =>
    match format.decode frame.payload with
    | none => (.error (.corrupt place), file)
    | some record => (.ok (some ⟨record, frame⟩), file)

def replayFrames (fold : σ → Framed R → σ) (total : Nat) :
    (fuel : Nat) → Replayed σ → PositionedFile →
      Except StoreError (Replayed σ × PositionedFile)
  | 0, log, file => .ok (log, file)
  | fuel + 1, log, file =>
    match format.nextFrame file log.count log.committed log.tail with
    | (.error refusal, _) => .error refusal
    | (.ok none, file) => .ok (log, file)
    | (.ok (some framed), file) =>
      let head := format.headFrom framed.record log.tail
      if head ≠ framed.frame.head then .error (.corrupt log.count)
      else
        let committed := log.committed + framedLen framed.frame.payload.length
        if total < committed then .ok (log, file)
        else
          let count := log.count + 1
          if format.maxRecords < count then
            .error (.limit .records count format.maxRecords)
          else
            replayFrames fold total fuel
              ⟨fold log.state framed, committed, head, count⟩ file

/-- Read every committed frame from the start.  Each whole frame has more than one byte, so
the length of the file is fuel enough. -/
def replayLog (fold : σ → Framed R → σ) (initial : σ) (file : PositionedFile) :
    Except StoreError (Replayed σ × PositionedFile) :=
  let total := file.len
  let (header, file) := (file.seek 0).readFull format.header.length
  match format.checkHeader header with
  | .error refusal => .error refusal
  | .ok () =>
    format.replayFrames fold total (total + 1)
      ⟨initial, format.header.length, format.genesis, 0⟩ file

def openLog (fold : σ → Framed R → σ) (initial : σ) (bytes : Bytes) :
    Except StoreError (Replayed σ × PositionedFile) :=
  let file : PositionedFile := ⟨bytes, 0⟩
  let file := if file.len = 0 then file.writeAll format.header else file
  match format.replayLog fold initial file with
  | .error refusal => .error refusal
  | .ok (log, file) =>
    .ok (log, if file.len ≠ log.committed then file.setLen log.committed else file)

/-- Frames that follow one another from `previous`, each of a size the writer allows. -/
def Chained (previous : Digest) : List (Framed R) → Prop
  | [] => True
  | framed :: rest =>
    format.decode framed.frame.payload = some framed.record ∧
      framed.frame.head = format.headFrom framed.record previous ∧
      framed.frame.Fits format.maxFrame ∧ Chained framed.frame.head rest

def replayOf (fold : σ → Framed R → σ) (initial : σ) (frames : List (Framed R)) : Replayed σ where
  state := frames.foldl fold initial
  committed := format.header.length + (framesBytes (frames.map Framed.frame)).length
  tail := frames.foldl (fun _ framed => framed.frame.head) format.genesis
  count := frames.length

def fileOf (frames : List (Framed R)) : Bytes :=
  format.header ++ framesBytes (frames.map Framed.frame)

end Format

def lastHead {R : Type} (previous : Digest) (frames : List (Framed R)) : Digest :=
  frames.foldl (fun _ framed => framed.frame.head) previous

def Replayed.extend {R σ : Type} (fold : σ → Framed R → σ) (log : Replayed σ)
    (frames : List (Framed R)) : Replayed σ where
  state := frames.foldl fold log.state
  committed := log.committed + (framesBytes (frames.map Framed.frame)).length
  tail := lastHead log.tail frames
  count := log.count + frames.length

namespace Format

variable {R σ : Type} {format : Format R} {fold : σ → Framed R → σ}

theorem chained_append {previous : Digest} {left right : List (Framed R)} :
    format.Chained previous (left ++ right) ↔
      format.Chained previous left ∧ format.Chained (lastHead previous left) right := by
  induction left generalizing previous with
  | nil => simp [Chained, lastHead]
  | cons framed rest ih =>
    simp only [List.cons_append, Chained, ih, lastHead, List.foldl_cons, and_assoc]

theorem frame_ok (lawful : format.Lawful) {record : R} {previous head : Digest} {framed : Bytes}
    (h : format.frame record previous = .ok (framed, head)) :
    ∃ read : Framed R, read.record = record ∧ framed = read.frame.bytes ∧
      head = read.frame.head ∧ format.Chained previous [read] := by
  obtain ⟨payload, harchive, hhead, hfits, hframed⟩ := frameRecord_fits h
  have hdecode : format.decode payload = some record := by
    refine lawful.decode_archive ?_
    cases hbytes : format.archive record with
    | none =>
      simp only [hbytes] at harchive
      cases harchive
    | some bytes =>
      simp only [hbytes] at harchive
      cases harchive
      rfl
  exact ⟨⟨record, ⟨payload, head⟩⟩, rfl, hframed, rfl, hdecode, hhead, hfits, trivial⟩

theorem Chained.decode {previous : Digest} {frames : List (Framed R)}
    (h : format.Chained previous frames) :
    ∀ read ∈ frames, format.decode read.frame.payload = some read.record := by
  induction frames generalizing previous with
  | nil => simp
  | cons first rest ih =>
    intro read hread
    rcases List.mem_cons.mp hread with rfl | hread
    · exact h.1
    · exact ih h.2.2.2 read hread

theorem nextFrame_framed {file : PositionedFile} {place offset : Nat} {previous : Digest}
    {framed : Framed R} {rest : Bytes}
    (hdecode : format.decode framed.frame.payload = some framed.record)
    (hfits : framed.frame.Fits format.maxFrame)
    (hunread : file.unread = framed.frame.bytes ++ rest) :
    format.nextFrame file place offset previous =
      (.ok (some framed), file.advance framed.frame.bytes.length) := by
  unfold nextFrame
  rw [readRaw_frame hfits hunread]
  simp only [hdecode]

theorem nextFrame_end {file : PositionedFile} {place offset : Nat} {previous : Digest}
    (hunread : file.unread = []) :
    format.nextFrame file place offset previous = (.ok none, file) := by
  unfold nextFrame
  rw [readRaw_end hunread]

theorem nextFrame_eq_some {file next : PositionedFile} {place offset : Nat} {previous : Digest}
    {framed : Framed R}
    (h : format.nextFrame file place offset previous = (.ok (some framed), next)) :
    framed.frame.Fits format.maxFrame ∧ next = file.advance framed.frame.bytes.length ∧
      file.unread = framed.frame.bytes ++ next.unread ∧
      format.decode framed.frame.payload = some framed.record := by
  unfold nextFrame at h
  split at h
  · cases h
  · cases h
  · rename_i frame after hread
    cases hdecode : format.decode frame.payload with
    | none =>
      simp only [hdecode] at h
      cases h
    | some record =>
      simp only [hdecode] at h
      cases h
      obtain ⟨hfits, hnext, hunread⟩ := readRaw_eq_some hread
      exact ⟨hfits, hnext, hunread, hdecode⟩

theorem nextFrame_keeps (file : PositionedFile) (place offset : Nat) (previous : Digest) :
    (format.nextFrame file place offset previous).2.bytes = file.bytes ∧
      file.position ≤ (format.nextFrame file place offset previous).2.position := by
  have hread := @readRaw_keeps StoreError file offset format.maxFrame previous .storage
    (.corrupt place) (fun previous payload =>
      (format.decode payload).map fun record => format.headFrom record previous)
  unfold nextFrame
  split
  · rename_i hraw
    rwa [hraw] at hread
  · rename_i hraw
    rwa [hraw] at hread
  · rename_i hraw
    rw [hraw] at hread
    split
    · exact hread
    · exact hread

theorem nextFrame_cut {file : PositionedFile} {place offset : Nat} {previous : Digest}
    {frame : Frame} {cut : Bytes} (hfits : frame.Fits format.maxFrame)
    (hunread : file.unread = cut) (hcut : cut <+: frame.bytes)
    (hshort : cut.length < frame.bytes.length) (hposition : file.position ≤ file.len) :
    (∃ refusal, format.nextFrame file place offset previous =
        (.error refusal, file.seek file.len)) ∨
      format.nextFrame file place offset previous = (.ok none, file.seek file.len) := by
  obtain ⟨hsome, hend⟩ := @readRaw_cut StoreError file offset format.maxFrame previous .storage
    (.corrupt place) (fun previous payload =>
      (format.decode payload).map fun record => format.headFrom record previous)
    frame cut hfits hunread hcut hshort hposition
  unfold nextFrame
  cases hread : readRaw file offset previous format.maxFrame StoreError.storage
      (.corrupt place) (fun previous payload =>
        (format.decode payload).map fun record => format.headFrom record previous) with
  | mk outcome after =>
    rw [hread] at hsome hend
    simp only [] at hend
    rw [hend]
    cases outcome with
    | error refusal => exact .inl ⟨refusal, rfl⟩
    | ok read =>
      cases read with
      | none => exact .inr rfl
      | some frame => exact absurd rfl (hsome frame)

def Cut (maxFrame : Nat) (cut : Bytes) : Prop :=
  ∃ frame : Frame, frame.Fits maxFrame ∧ cut <+: frame.bytes ∧ cut.length < frame.bytes.length

theorem cut_nil {maxFrame : Nat} (h : 0 < maxFrame) : Cut maxFrame [] := by
  refine ⟨⟨[0], .fromBytes []⟩, ⟨?_, by decide⟩, List.nil_prefix, ?_⟩
  · exact isPossibleLength_iff.mpr ⟨Nat.one_pos, h⟩
  · rw [Frame.length_bytes, framedLen, List.length_nil]
    unfold headBytes
    omega

/-- However a file is read as whole chained frames, they are the first of those it holds. -/
theorem Chained.prefix_of_cut {previous : Digest} {left right : List (Framed R)}
    {rest cut : Bytes} (hleft : format.Chained previous left)
    (hright : format.Chained previous right) (hcut : Cut format.maxFrame cut)
    (h : framesBytes (left.map Framed.frame) ++ rest =
      framesBytes (right.map Framed.frame) ++ cut) : left <+: right := by
  induction left generalizing previous right with
  | nil => exact List.nil_prefix
  | cons first others ih =>
    obtain ⟨hdecode, -, hfits, hchain⟩ := hleft
    rw [List.map_cons, framesBytes_cons, List.append_assoc] at h
    -- one read of these bytes decides which frame comes first
    have hread := @nextFrame_framed R format ⟨_, 0⟩ 0 0 previous first _ hdecode hfits
      (List.drop_zero.trans h.symm)
    cases right with
    | nil =>
      obtain ⟨frame, hframe, hfirst, hshort⟩ := hcut
      rcases @nextFrame_cut R format ⟨_, 0⟩ 0 0 previous frame _ hframe
        (List.drop_zero (l := framesBytes ([].map Framed.frame) ++ cut)) hfirst hshort
        (Nat.zero_le _) with ⟨refusal, hnone⟩ | hnone
      · rw [hread] at hnone
        cases hnone
      · rw [hread] at hnone
        cases hnone
    | cons second more =>
      obtain ⟨hsecond, -, hroom, hbehind⟩ := hright
      rw [List.map_cons, framesBytes_cons, List.append_assoc] at h hread
      have hother := @nextFrame_framed R format ⟨_, 0⟩ 0 0 previous second _ hsecond hroom
        (List.drop_zero (l := second.frame.bytes ++ (framesBytes (more.map Framed.frame) ++ cut)))
      rw [hread] at hother
      cases hother
      rw [List.prefix_cons_inj]
      exact ih hchain hbehind (List.append_cancel_left h)

theorem replayFrames_framed {total fuel : Nat} {log : Replayed σ} {file : PositionedFile}
    {framed : Framed R} {rest : Bytes}
    (hdecode : format.decode framed.frame.payload = some framed.record)
    (hhead : framed.frame.head = format.headFrom framed.record log.tail)
    (hfits : framed.frame.Fits format.maxFrame)
    (hunread : file.unread = framed.frame.bytes ++ rest)
    (htotal : log.committed + framed.frame.bytes.length ≤ total) :
    format.replayFrames fold total (fuel + 1) log file =
      if format.maxRecords < log.count + 1 then
        .error (.limit .records (log.count + 1) format.maxRecords)
      else format.replayFrames fold total fuel
        ⟨fold log.state framed, log.committed + framed.frame.bytes.length, framed.frame.head,
          log.count + 1⟩ (file.advance framed.frame.bytes.length) := by
  rw [Frame.length_bytes] at htotal
  conv => lhs; unfold replayFrames
  rw [nextFrame_framed hdecode hfits hunread]
  simp only []
  rw [if_neg (not_not.mpr hhead.symm), if_neg (Nat.not_lt.mpr htotal), ← hhead,
    Frame.length_bytes]

theorem replayFrames_chained {total : Nat} (frames : List (Framed R)) :
    ∀ {fuel : Nat} {log : Replayed σ} {file : PositionedFile} {rest : Bytes},
      format.Chained log.tail frames →
      file.unread = framesBytes (frames.map Framed.frame) ++ rest →
      log.committed + (framesBytes (frames.map Framed.frame)).length ≤ total →
      log.count + frames.length ≤ format.maxRecords →
      format.replayFrames fold total (fuel + frames.length) log file =
        format.replayFrames fold total fuel (log.extend fold frames)
          (file.advance (framesBytes (frames.map Framed.frame)).length) := by
  induction frames with
  | nil =>
    intro fuel log file rest _ _ _ _
    simp [Replayed.extend, lastHead]
  | cons framed frames ih =>
    intro fuel log file rest hchain hunread htotal hcount
    obtain ⟨hdecode, hhead, hfits, hchain⟩ := hchain
    simp only [List.map_cons, framesBytes_cons, List.append_assoc, List.length_append,
      List.length_cons] at hunread htotal hcount ⊢
    rw [← Nat.add_assoc, replayFrames_framed hdecode hhead hfits hunread (by omega),
      if_neg (by omega), ih hchain (PositionedFile.unread_advance_append hunread)
      (by simp only []; omega) (by simp only []; omega), PositionedFile.advance_advance]
    congr 1
    simp only [Replayed.extend, List.foldl_cons, List.map_cons, framesBytes_cons,
      List.length_append, List.length_cons, lastHead]
    congr 1
    all_goals omega

theorem replayFrames_limit {total : Nat} (frames : List (Framed R)) :
    ∀ {fuel : Nat} {log : Replayed σ} {file : PositionedFile} {rest : Bytes},
      format.Chained log.tail frames →
      file.unread = framesBytes (frames.map Framed.frame) ++ rest →
      log.committed + (framesBytes (frames.map Framed.frame)).length ≤ total →
      log.count ≤ format.maxRecords → format.maxRecords < log.count + frames.length →
      format.replayFrames fold total (fuel + frames.length) log file =
        .error (.limit .records (format.maxRecords + 1) format.maxRecords) := by
  induction frames with
  | nil =>
    intro fuel log file rest _ _ _ hbelow habove
    rw [List.length_nil] at habove
    omega
  | cons framed frames ih =>
    intro fuel log file rest hchain hunread htotal hbelow habove
    obtain ⟨hdecode, hhead, hfits, hchain⟩ := hchain
    simp only [List.map_cons, framesBytes_cons, List.append_assoc, List.length_append,
      List.length_cons] at hunread htotal habove ⊢
    rw [← Nat.add_assoc, replayFrames_framed hdecode hhead hfits hunread (by omega)]
    split
    · have hcount : log.count = format.maxRecords := by omega
      rw [hcount]
    · exact ih hchain (PositionedFile.unread_advance_append hunread) (by simp only []; omega)
        (by simp only []; omega) (by simp only []; omega)

/-- What a replay accepts is a chain of whole frames, and it leaves their fold and a handle
that stands behind them. -/
theorem replayFrames_sound {total : Nat} (fuel : Nat) :
    ∀ {log read : Replayed σ} {file after : PositionedFile},
      format.replayFrames fold total fuel log file = .ok (read, after) →
      ∃ frames rest, format.Chained log.tail frames ∧
        file.unread = framesBytes (frames.map Framed.frame) ++ rest ∧
        read = log.extend fold frames ∧ after.bytes = file.bytes ∧
        file.position + (framesBytes (frames.map Framed.frame)).length ≤ after.position := by
  induction fuel with
  | zero =>
    intro log read file after h
    cases h
    exact ⟨[], _, trivial, rfl, rfl, rfl, Nat.le_refl _⟩
  | succ fuel ih =>
    intro log read file after h
    have hkeeps := @nextFrame_keeps R format file log.count log.committed log.tail
    unfold replayFrames at h
    cases hnext : format.nextFrame file log.count log.committed log.tail with
    | mk outcome next =>
      rw [hnext] at h hkeeps
      cases outcome with
      | error refusal => cases h
      | ok found =>
        cases found with
        | none =>
          cases h
          exact ⟨[], _, trivial, rfl, rfl, hkeeps.1, hkeeps.2⟩
        | some framed =>
          simp only [] at h
          obtain ⟨hfits, hadvance, hunread, hdecode⟩ := nextFrame_eq_some hnext
          split at h
          · cases h
          · rename_i hhead
            split at h
            · cases h
              exact ⟨[], _, trivial, rfl, rfl, hkeeps.1, hkeeps.2⟩
            · split at h
              · cases h
              · obtain ⟨frames, rest, hchain, hrest, hread, hbytes, hposition⟩ := ih h
                have hsame := not_not.mp hhead
                refine ⟨framed :: frames, rest, ⟨hdecode, hsame.symm, hfits, ?_⟩, ?_, ?_,
                  hbytes.trans hkeeps.1, ?_⟩
                · rw [← hsame]
                  exact hchain
                · rw [List.map_cons, framesBytes_cons, List.append_assoc, ← hrest]
                  exact hunread
                · rw [hread]
                  simp only [Replayed.extend, List.foldl_cons, List.map_cons,
                    framesBytes_cons, List.length_append, List.length_cons, lastHead,
                    hsame, Frame.length_bytes]
                  congr 1
                  all_goals omega
                · rw [hadvance, PositionedFile.position_advance] at hposition
                  rw [List.map_cons, framesBytes_cons, List.length_append]
                  omega

theorem length_fileOf (frames : List (Framed R)) :
    (format.fileOf frames).length =
      format.header.length + (framesBytes (frames.map Framed.frame)).length :=
  List.length_append

theorem fileOf_snoc (frames : List (Framed R)) (read : Framed R) :
    format.fileOf (frames ++ [read]) = format.fileOf frames ++ read.frame.bytes := by
  simp [fileOf, framesBytes]

theorem fileOf_append (left right : List (Framed R)) :
    format.fileOf (left ++ right) =
      format.fileOf left ++ framesBytes (right.map Framed.frame) := by
  simp [fileOf]

theorem length_le_framesBytes (frames : List Frame) :
    frames.length ≤ (framesBytes frames).length := by
  induction frames with
  | nil => exact Nat.le_refl 0
  | cons frame rest ih =>
    rw [framesBytes_cons, List.length_append, Frame.length_bytes, framedLen, List.length_cons]
    unfold headBytes
    omega

theorem committed_replayOf (initial : σ) (frames : List (Framed R)) :
    (format.replayOf fold initial frames).committed = (format.fileOf frames).length :=
  (length_fileOf frames).symm

theorem replayLog_start (lawful : format.Lawful) {initial : σ} {frames : List (Framed R)}
    {file : PositionedFile} {rest : Bytes} (hbytes : file.bytes = format.fileOf frames ++ rest) :
    ((file.seek 0).advance format.header.length).unread =
        framesBytes (frames.map Framed.frame) ++ rest ∧
      format.header.length + (framesBytes (frames.map Framed.frame)).length ≤ file.len ∧
      ∃ fuel, format.replayLog fold initial file =
        format.replayFrames fold file.len (fuel + 1 + frames.length)
          ⟨initial, format.header.length, format.genesis, 0⟩
          ((file.seek 0).advance format.header.length) := by
  have hstart : (file.seek 0).unread =
      format.header ++ (framesBytes (frames.map Framed.frame) ++ rest) := by
    rw [← List.append_assoc]
    exact hbytes
  have hlength : file.len = format.header.length +
      (framesBytes (frames.map Framed.frame)).length + rest.length := by
    rw [PositionedFile.len, hbytes, List.length_append, length_fileOf]
  have hfew := length_le_framesBytes (frames.map Framed.frame)
  rw [List.length_map] at hfew
  have hfuel : file.len + 1 = file.len - frames.length + 1 + frames.length := by omega
  refine ⟨PositionedFile.unread_advance_append hstart, by omega, file.len - frames.length, ?_⟩
  unfold replayLog
  simp only [PositionedFile.readFull_append hstart, lawful.checkHeader_header]
  rw [hfuel]

theorem replayLog_ahead (lawful : format.Lawful) {initial : σ} {frames : List (Framed R)}
    {file : PositionedFile} {rest : Bytes} (hchain : format.Chained format.genesis frames)
    (hcount : frames.length ≤ format.maxRecords)
    (hbytes : file.bytes = format.fileOf frames ++ rest) :
    ∃ fuel, format.replayLog fold initial file =
      format.replayFrames fold file.len (fuel + 1) (format.replayOf fold initial frames)
        ⟨file.bytes, (format.fileOf frames).length⟩ := by
  obtain ⟨hunread, htotal, fuel, hstart⟩ :=
    @replayLog_start R σ format fold lawful initial frames file rest hbytes
  refine ⟨fuel, ?_⟩
  rw [hstart, replayFrames_chained frames hchain hunread htotal (by simpa using hcount),
    length_fileOf]
  simp [Replayed.extend, replayOf, lastHead, PositionedFile.advance, PositionedFile.seek]

theorem replayLog_fileOf (lawful : format.Lawful) {initial : σ} {frames : List (Framed R)}
    {file : PositionedFile} (hchain : format.Chained format.genesis frames)
    (hcount : frames.length ≤ format.maxRecords) (hbytes : file.bytes = format.fileOf frames) :
    format.replayLog fold initial file =
      .ok (format.replayOf fold initial frames, ⟨file.bytes, file.bytes.length⟩) := by
  obtain ⟨fuel, hreplay⟩ := @replayLog_ahead R σ format fold lawful initial frames file [] hchain
    hcount (by rw [hbytes, List.append_nil])
  have hend : (⟨file.bytes, (format.fileOf frames).length⟩ : PositionedFile).unread = [] := by
    rw [PositionedFile.unread, hbytes, List.drop_length]
  rw [hreplay]
  unfold replayFrames
  rw [nextFrame_end hend, hbytes]

theorem replayLog_limit (lawful : format.Lawful) {initial : σ} {frames : List (Framed R)}
    {file : PositionedFile} {rest : Bytes} (hchain : format.Chained format.genesis frames)
    (hcount : format.maxRecords < frames.length)
    (hbytes : file.bytes = format.fileOf frames ++ rest) :
    format.replayLog fold initial file =
      .error (.limit .records (format.maxRecords + 1) format.maxRecords) := by
  obtain ⟨hunread, htotal, fuel, hstart⟩ :=
    @replayLog_start R σ format fold lawful initial frames file rest hbytes
  rw [hstart]
  exact replayFrames_limit frames hchain hunread htotal (Nat.zero_le _) (by simpa using hcount)

/-- Behind a frame cut short a replay stops, with the handle at the end of the file, or
refuses the file. -/
theorem replayLog_cut (lawful : format.Lawful) {initial : σ} {frames : List (Framed R)}
    {frame : Frame} {file : PositionedFile} {cut : Bytes}
    (hchain : format.Chained format.genesis frames)
    (hcount : frames.length ≤ format.maxRecords) (hfits : frame.Fits format.maxFrame)
    (hcut : cut <+: frame.bytes) (hshort : cut.length < frame.bytes.length)
    (hbytes : file.bytes = format.fileOf frames ++ cut) :
    (∃ refusal, format.replayLog fold initial file = .error refusal) ∨
      format.replayLog fold initial file =
        .ok (format.replayOf fold initial frames, ⟨file.bytes, file.bytes.length⟩) := by
  obtain ⟨fuel, hreplay⟩ := @replayLog_ahead R σ format fold lawful initial frames file cut hchain
    hcount hbytes
  have hbehind : (⟨file.bytes, (format.fileOf frames).length⟩ : PositionedFile).unread = cut := by
    rw [PositionedFile.unread, hbytes, List.drop_left]
  rw [hreplay]
  unfold replayFrames
  rcases @nextFrame_cut R format ⟨file.bytes, (format.fileOf frames).length⟩
      (format.replayOf fold initial frames).count (format.replayOf fold initial frames).committed
      (format.replayOf fold initial frames).tail frame cut hfits hbehind hcut hshort
      (by simp only [PositionedFile.len, hbytes, List.length_append]; omega) with ⟨refusal, hnext⟩ | hnext
  · rw [hnext]
    exact .inl ⟨refusal, rfl⟩
  · rw [hnext]
    exact .inr rfl

theorem len_fileOf_ne_zero (lawful : format.Lawful) (frames : List (Framed R)) (rest : Bytes) :
    (⟨format.fileOf frames ++ rest, 0⟩ : PositionedFile).len ≠ 0 := by
  rw [PositionedFile.len, Ne, List.length_eq_zero_iff]
  intro h
  exact lawful.header_ne_nil (List.append_eq_nil_iff.mp (List.append_eq_nil_iff.mp h).1).1

theorem openLog_fileOf (lawful : format.Lawful) {initial : σ} {frames : List (Framed R)}
    (hchain : format.Chained format.genesis frames)
    (hcount : frames.length ≤ format.maxRecords) :
    format.openLog fold initial (format.fileOf frames) =
      .ok (format.replayOf fold initial frames,
        ⟨format.fileOf frames, (format.fileOf frames).length⟩) := by
  have hsome := len_fileOf_ne_zero lawful frames []
  rw [List.append_nil] at hsome
  unfold openLog
  simp only [if_neg hsome]
  rw [replayLog_fileOf lawful hchain hcount rfl]
  simp only [committed_replayOf, PositionedFile.len, ne_eq, not_true_eq_false, if_false]

theorem openLog_limit (lawful : format.Lawful) {initial : σ} {frames : List (Framed R)}
    {bytes rest : Bytes} (hchain : format.Chained format.genesis frames)
    (hcount : format.maxRecords < frames.length) (hbytes : bytes = format.fileOf frames ++ rest) :
    format.openLog fold initial bytes =
      .error (.limit .records (format.maxRecords + 1) format.maxRecords) := by
  subst hbytes
  unfold openLog
  simp only [if_neg (len_fileOf_ne_zero lawful frames rest)]
  rw [replayLog_limit lawful hchain hcount rfl]

theorem openLog_nil (lawful : format.Lawful) {initial : σ} :
    format.openLog fold initial [] =
      .ok (format.replayOf fold initial [], ⟨format.fileOf [], (format.fileOf []).length⟩) := by
  have hfile : (⟨[], 0⟩ : PositionedFile).writeAll format.header =
      ⟨format.fileOf [], (format.fileOf []).length⟩ := by
    rw [PositionedFile.writeAll_at_end rfl]
    simp [fileOf]
  have hchain : format.Chained format.genesis ([] : List (Framed R)) := trivial
  unfold openLog
  simp only [PositionedFile.len, List.length_nil, if_true, hfile]
  rw [replayLog_fileOf lawful hchain (Nat.zero_le _) rfl]
  simp only [committed_replayOf, ne_eq, not_true_eq_false, if_false]

/-- A file that ends in a cut frame is refused, or trimmed with the handle left where the
cut ended. -/
theorem openLog_cut (lawful : format.Lawful) {initial : σ} {frames : List (Framed R)}
    {frame : Frame} {cut : Bytes} (hchain : format.Chained format.genesis frames)
    (hcount : frames.length ≤ format.maxRecords) (hfits : frame.Fits format.maxFrame)
    (hcut : cut <+: frame.bytes) (hshort : cut.length < frame.bytes.length) :
    (∃ refusal, format.openLog fold initial (format.fileOf frames ++ cut) = .error refusal) ∨
      format.openLog fold initial (format.fileOf frames ++ cut) =
        .ok (format.replayOf fold initial frames,
          ⟨format.fileOf frames, (format.fileOf frames).length + cut.length⟩) := by
  unfold openLog
  simp only [if_neg (len_fileOf_ne_zero lawful frames cut)]
  rcases @replayLog_cut R σ format fold lawful initial frames frame
      ⟨format.fileOf frames ++ cut, 0⟩ cut hchain hcount hfits hcut hshort rfl with
    ⟨refusal, hreplay⟩ | hreplay
  · rw [hreplay]
    exact .inl ⟨refusal, rfl⟩
  · rw [hreplay]
    right
    simp only [committed_replayOf, PositionedFile.len, List.length_append]
    split
    · simp [PositionedFile.setLen]
    · rename_i hsame
      have hnil : cut = [] := List.length_eq_zero_iff.mp (by omega)
      simp [hnil]

/-- A file that opens is left as a header and a chain of whole frames, with the fold of its
frames, and a handle that stands at its end or behind it. -/
theorem openLog_sound (lawful : format.Lawful) {initial : σ} {bytes : Bytes} {log : Replayed σ} {file : PositionedFile}
    (h : format.openLog fold initial bytes = .ok (log, file)) :
    ∃ start frames, format.Chained format.genesis frames ∧
      start.length = format.header.length ∧
      file.bytes = start ++ framesBytes (frames.map Framed.frame) ∧
      log = format.replayOf fold initial frames ∧ file.bytes.length ≤ file.position := by
  unfold openLog at h
  simp only [] at h
  generalize hfile : (if (⟨bytes, 0⟩ : PositionedFile).len = 0 then
    (⟨bytes, 0⟩ : PositionedFile).writeAll format.header else ⟨bytes, 0⟩) = opened at h
  cases hreplay : format.replayLog fold initial opened with
  | error refusal =>
    rw [hreplay] at h
    cases h
  | ok pair =>
    obtain ⟨read, after⟩ := pair
    rw [hreplay] at h
    simp only [Except.ok.injEq, Prod.mk.injEq] at h
    obtain ⟨rfl, hafter⟩ := h
    unfold replayLog at hreplay
    cases hheader : (opened.seek 0).readFull format.header.length with
    | mk header behind =>
      simp only [hheader] at hreplay
      split at hreplay
      · cases hreplay
      · rename_i hcheck
        cases header with
        | none => exact absurd hcheck lawful.checkHeader_none
        | some start =>
          obtain ⟨hstart, hadvance, hopened⟩ := PositionedFile.readFull_eq_some hheader
          obtain ⟨frames, rest, hchain, hunread, hread, hbytes, hposition⟩ :=
            replayFrames_sound _ hreplay
          have hwhole : after.bytes =
              start ++ framesBytes (frames.map Framed.frame) ++ rest := by
            rw [hbytes, hadvance, List.append_assoc, ← hunread]
            exact hopened
          have hcommitted : read.committed =
              (start ++ framesBytes (frames.map Framed.frame)).length := by
            rw [hread, List.length_append, hstart]
            rfl
          have hbehind : read.committed ≤ after.position := by
            rw [hadvance] at hposition
            simp only [PositionedFile.position_advance, PositionedFile.position_seek]
              at hposition
            rw [hcommitted, List.length_append, hstart]
            omega
          have hlog : read = format.replayOf fold initial frames := by
            rw [hread]
            simp [Replayed.extend, replayOf, lastHead]
          refine ⟨start, frames, hchain, hstart, ?_, hlog, ?_⟩
          · rw [← hafter]
            split
            · rw [hcommitted]
              exact PositionedFile.setLen_append hwhole
            · rename_i hsame
              rw [not_not, PositionedFile.len, hwhole, List.length_append] at hsame
              have hrest : rest = [] := List.length_eq_zero_iff.mp (by omega)
              rw [hwhole, hrest, List.append_nil]
          · rw [← hafter]
            split
            · rw [hcommitted, PositionedFile.setLen_append hwhole, ← hcommitted]
              exact hbehind
            · rename_i hsame
              rw [not_not, PositionedFile.len] at hsame
              rw [hsame]
              exact hbehind

end Format

end LogicalWorks.Task
