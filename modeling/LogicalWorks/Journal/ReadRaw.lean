import LogicalWorks.Journal.Frame
import LogicalWorks.Lib.PositionedFile

/-! Reading whole frames through a file handle, for the stores whose record is their own.
The handle is left wherever the last read or seek took it. -/
namespace LogicalWorks.Journal

/-- What a payload or a head cut short under a whole prefix at `offset` is: an append that
never finished, or an acknowledged frame under another length. -/
def resolveCut {E : Type} (bytes : Bytes) (offset : Nat) (previous : Digest) (maxFrame : Nat)
    (storage : String → E) (corrupt : E) (headOf : Digest → Bytes → Option Digest) :
    Except E (Option Frame) :=
  let start := offset + lengthBytes
  let behind := bytes.length - start
  if maxFrame + headBytes < behind then
    .error (storage "the file grew while its tail was being resolved; reopen it")
  else if holdsAcknowledgedFrame (bytes.drop start) previous maxFrame headOf then
    .error corrupt
  else .ok none

def readRaw {E : Type} (file : PositionedFile) (offset : Nat) (previous : Digest)
    (maxFrame : Nat) (storage : String → E) (corrupt : E)
    (headOf : Digest → Bytes → Option Digest) : Except E (Option Frame) × PositionedFile :=
  match readPrefix file.unread with
  | .eof | .torn => (.ok none, (file.readFull lengthBytes).2)
  | .full =>
    let declared := declaredLength (file.unread.take lengthBytes)
    let file := file.advance lengthBytes
    if isPossibleLength declared maxFrame then
      match file.readFull declared with
      | (some payload, file) =>
        match file.readFull headBytes with
        | (some head, file) => (.ok (some ⟨payload, Digest.fromBytes head⟩), file)
        | (none, file) =>
          -- the tail search seeks to the end and reads everything behind the prefix
          (resolveCut file.bytes offset previous maxFrame storage corrupt headOf,
            file.seek file.len)
      | (none, file) =>
        (resolveCut file.bytes offset previous maxFrame storage corrupt headOf,
          file.seek file.len)
    else (.error corrupt, file)

/-- A frame whose length a writer bounded by `maxFrame` writes and its reader accepts. -/
def Frame.Fits (frame : Frame) (maxFrame : Nat) : Prop :=
  isPossibleLength frame.payload.length maxFrame = true ∧ frame.payload.length < 2 ^ 32

theorem isPossibleLength_iff {payloadLen maxFrame : Nat} :
    isPossibleLength payloadLen maxFrame = true ↔ 0 < payloadLen ∧ payloadLen ≤ maxFrame := by
  simp [isPossibleLength, Nat.pos_iff_ne_zero]

theorem frameRecord_fits {R E : Type} {record : R} {previous : Digest} {maxFrame : Nat}
    {archive : R → Except E Bytes} {head : R → Digest → Bytes → Digest} {refuse : Nat → E}
    {framed : Bytes} {chained : Digest}
    (h : frameRecord record previous maxFrame archive head refuse = .ok (framed, chained)) :
    ∃ payload, archive record = .ok payload ∧ chained = head record previous payload ∧
      (⟨payload, chained⟩ : Frame).Fits maxFrame ∧ framed = (⟨payload, chained⟩ : Frame).bytes := by
  unfold frameRecord at h
  cases harchive : archive record with
  | error cause =>
    rw [harchive] at h
    cases h
  | ok payload =>
    simp only [harchive] at h
    cases hlength : writableLength payload.length maxFrame with
    | none =>
      simp only [hlength] at h
      cases h
    | some prefixed =>
      simp only [hlength] at h
      cases h
      unfold writableLength at hlength
      split at hlength
      · rename_i hroom
        cases hlength
        exact ⟨payload, rfl, rfl, ⟨hroom.2, hroom.1⟩, rfl⟩
      · cases hlength

theorem frameRecord_of_fits {R E : Type} {record : R} {previous : Digest} {maxFrame : Nat}
    {archive : R → Except E Bytes} {head : R → Digest → Bytes → Digest} {refuse : Nat → E}
    {payload : Bytes} (harchive : archive record = .ok payload)
    (hfits : (⟨payload, head record previous payload⟩ : Frame).Fits maxFrame) :
    frameRecord record previous maxFrame archive head refuse =
      .ok ((⟨payload, head record previous payload⟩ : Frame).bytes,
        head record previous payload) := by
  have hlength : writableLength payload.length maxFrame =
      some (UInt32.ofNat payload.length) := by
    unfold writableLength
    rw [if_pos ⟨hfits.2, hfits.1⟩]
  unfold frameRecord
  rw [harchive]
  simp only [hlength]
  rfl

theorem readPrefix_eq_full {rest : Bytes} (h : lengthBytes ≤ rest.length) :
    readPrefix rest = .full := by
  unfold lengthBytes at h
  unfold readPrefix
  split
  · omega
  · rw [if_neg]
    unfold lengthBytes
    omega

theorem readPrefix_ne_full {rest : Bytes} (h : rest.length < lengthBytes) :
    readPrefix rest = .eof ∨ readPrefix rest = .torn := by
  unfold readPrefix
  split
  · exact .inl rfl
  · exact .inr (if_pos h)

theorem take_u32BE (value : UInt32) (rest : Bytes) :
    (Bytes.u32BE value ++ rest).take lengthBytes = Bytes.u32BE value :=
  @List.take_left _ (Bytes.u32BE value) rest

variable {E : Type} {file : PositionedFile} {offset maxFrame : Nat} {previous : Digest}
  {storage : String → E} {corrupt : E} {headOf : Digest → Bytes → Option Digest}

theorem declaredLength_of_fits {frame : Frame} (h : frame.Fits maxFrame) :
    declaredLength (Bytes.u32BE (UInt32.ofNat frame.payload.length)) = frame.payload.length := by
  rw [declaredLength, Bytes.ofBE_u32BE, UInt32.toNat_ofNat', Nat.mod_eq_of_lt h.2]

theorem reads_of_frame {frame : Frame} {rest : Bytes}
    (hunread : file.unread = frame.bytes ++ rest) :
    readPrefix file.unread = .full ∧
      file.unread.take lengthBytes = Bytes.u32BE (UInt32.ofNat frame.payload.length) ∧
      ∃ behind, (file.advance lengthBytes).readFull frame.payload.length =
          (some frame.payload, behind) ∧
        behind.readFull headBytes = (some frame.head.bytes, file.advance frame.bytes.length) := by
  have hsplit : file.unread = Bytes.u32BE (UInt32.ofNat frame.payload.length) ++
      (frame.payload ++ (frame.head.bytes ++ rest)) := by
    rw [hunread, Frame.bytes, encode, List.append_assoc, List.append_assoc]
  have hfull : readPrefix file.unread = .full := by
    apply readPrefix_eq_full
    rw [hsplit, List.length_append, Bytes.length_u32BE]
    unfold lengthBytes
    omega
  have htake : file.unread.take lengthBytes =
      Bytes.u32BE (UInt32.ofNat frame.payload.length) := by
    rw [hsplit]
    exact take_u32BE _ _
  have hpayload : (file.advance lengthBytes).unread =
      frame.payload ++ (frame.head.bytes ++ rest) :=
    PositionedFile.unread_advance_append hsplit
  have hhead : ((file.advance lengthBytes).advance frame.payload.length).unread =
      frame.head.bytes ++ rest := PositionedFile.unread_advance_append hpayload
  have hread := PositionedFile.readFull_append hhead
  rw [frame.head.length_bytes, PositionedFile.advance_advance, PositionedFile.advance_advance,
    Nat.add_assoc] at hread
  refine ⟨hfull, htake, _, PositionedFile.readFull_append hpayload, ?_⟩
  rw [PositionedFile.advance_advance, hread, Frame.length_bytes, framedLen, Nat.add_assoc]

theorem readRaw_frame {frame : Frame} {rest : Bytes} (hfits : frame.Fits maxFrame)
    (hunread : file.unread = frame.bytes ++ rest) :
    readRaw file offset previous maxFrame storage corrupt headOf =
      (.ok (some frame), file.advance frame.bytes.length) := by
  obtain ⟨hfull, htake, behind, hpayload, hhead⟩ := reads_of_frame hunread
  unfold readRaw
  rw [hfull]
  simp only [htake, declaredLength_of_fits hfits, hfits.1, if_true, hpayload, hhead,
    Digest.fromBytes_bytes]

theorem readRaw_end (hunread : file.unread = []) :
    readRaw file offset previous maxFrame storage corrupt headOf = (.ok none, file) := by
  have hshort : file.unread.length < lengthBytes := by
    rw [hunread]
    decide
  have hread : (file.readFull lengthBytes).2 = file := by
    rw [PositionedFile.readFull_short hshort, hunread]
    rfl
  have heof : readPrefix file.unread = .eof := by
    rw [hunread]
    rfl
  unfold readRaw
  rw [heof]
  simp only [hread]

theorem reads_of_cut {frame : Frame} {cut : Bytes} (hunread : file.unread = cut)
    (hcut : cut <+: frame.bytes) (hshort : cut.length < frame.bytes.length)
    (hposition : file.position ≤ file.len) :
    (readPrefix file.unread ≠ .full ∧ (file.readFull lengthBytes).2 = file.seek file.len) ∨
      (readPrefix file.unread = .full ∧
        file.unread.take lengthBytes = Bytes.u32BE (UInt32.ofNat frame.payload.length) ∧
        ((file.advance lengthBytes).readFull frame.payload.length = (none, file.seek file.len) ∨
          ∃ payload behind, (file.advance lengthBytes).readFull frame.payload.length =
            (some payload, behind) ∧ behind.readFull headBytes = (none, file.seek file.len))) := by
  have hend : ∀ count, file.position + count + (cut.length - count) = file.len ∨
      cut.length < count := by
    intro count
    have hlength := @PositionedFile.length_unread file
    rw [hunread] at hlength
    unfold PositionedFile.len at hposition ⊢
    omega
  by_cases hlead : cut.length < lengthBytes
  · have hread : (file.readFull lengthBytes).2 = file.seek file.len := by
      have hzero := (hend 0).resolve_right (Nat.not_lt_zero _)
      rw [PositionedFile.readFull_short (by rwa [hunread]), hunread, ← hzero]
      rfl
    left
    refine ⟨?_, hread⟩
    rw [hunread]
    rcases readPrefix_ne_full hlead with hkind | hkind
    · rw [hkind]
      exact Prefix.noConfusion
    · rw [hkind]
      exact Prefix.noConfusion
  · rw [Nat.not_lt] at hlead
    right
    have htake : cut.take lengthBytes =
        Bytes.u32BE (UInt32.ofNat frame.payload.length) := by
      have hsplit : frame.bytes = Bytes.u32BE (UInt32.ofNat frame.payload.length) ++
          (frame.payload ++ frame.head.bytes) := by
        rw [Frame.bytes, encode, List.append_assoc]
      obtain ⟨rest, hrest⟩ := hcut
      rw [← hrest] at hsplit
      have h := congrArg (List.take lengthBytes) hsplit
      rw [List.take_append_of_le_length hlead] at h
      rw [h]
      exact take_u32BE _ _
    have hbehind : (file.advance lengthBytes).unread = cut.drop lengthBytes := by
      rw [PositionedFile.unread_advance, hunread]
    rw [Frame.length_bytes, framedLen] at hshort
    refine ⟨by rw [hunread]; exact readPrefix_eq_full hlead, by rw [hunread]; exact htake, ?_⟩
    by_cases hroom : frame.payload.length ≤ (cut.drop lengthBytes).length
    · right
      have hpayload : (file.advance lengthBytes).unread =
          (cut.drop lengthBytes).take frame.payload.length ++
            (cut.drop lengthBytes).drop frame.payload.length := by
        rw [hbehind, List.take_append_drop]
      have hlength : ((cut.drop lengthBytes).take frame.payload.length).length =
          frame.payload.length := by
        rw [List.length_take]
        omega
      have hread := PositionedFile.readFull_append hpayload
      have hhead := PositionedFile.unread_advance_append hpayload
      rw [hlength] at hread hhead
      refine ⟨_, _, hread, ?_⟩
      rw [List.length_drop] at hroom
      rw [PositionedFile.readFull_short (by
        rw [hhead, List.length_drop, List.length_drop]
        omega), hhead, List.drop_drop, List.length_drop, PositionedFile.advance_advance,
        PositionedFile.advance_advance]
      have hlast := (hend (lengthBytes + frame.payload.length)).resolve_right (by omega)
      rw [← hlast]
      simp [PositionedFile.advance, PositionedFile.seek, Nat.add_assoc]
    · left
      rw [PositionedFile.readFull_short (by rw [hbehind]; omega), hbehind, List.length_drop,
        PositionedFile.advance_advance]
      have hlast := (hend lengthBytes).resolve_right (by omega)
      rw [← hlast]
      simp [PositionedFile.advance, PositionedFile.seek, Nat.add_assoc]

theorem readRaw_cut {frame : Frame} {cut : Bytes} (hfits : frame.Fits maxFrame)
    (hunread : file.unread = cut) (hcut : cut <+: frame.bytes)
    (hshort : cut.length < frame.bytes.length) (hposition : file.position ≤ file.len) :
    (∀ read, (readRaw file offset previous maxFrame storage corrupt headOf).1 ≠
        .ok (some read)) ∧
      (readRaw file offset previous maxFrame storage corrupt headOf).2 = file.seek file.len := by
  have hresolve : ∀ read, resolveCut file.bytes offset previous maxFrame storage corrupt headOf ≠
      .ok (some read) := by
    intro read
    unfold resolveCut
    simp only []
    split
    · intro h
      cases h
    · split
      · intro h
        cases h
      · intro h
        cases h
  unfold readRaw
  rcases reads_of_cut hunread hcut hshort hposition with
    ⟨hkind, hread⟩ | ⟨hfull, htake, hmissing | ⟨payload, behind, hpayload, hmissing⟩⟩
  · cases hprefix : readPrefix file.unread with
    | full => exact absurd hprefix hkind
    | eof =>
      refine ⟨?_, hread⟩
      intro read h
      cases h
    | torn =>
      refine ⟨?_, hread⟩
      intro read h
      cases h
  · rw [hfull]
    simp only [htake, declaredLength_of_fits hfits, hfits.1, if_true, hmissing]
    exact ⟨hresolve, rfl⟩
  · rw [hfull]
    simp only [htake, declaredLength_of_fits hfits, hfits.1, if_true, hpayload, hmissing]
    exact ⟨hresolve, rfl⟩

theorem readRaw_eq_some {frame : Frame} {next : PositionedFile}
    (h : readRaw file offset previous maxFrame storage corrupt headOf =
      (.ok (some frame), next)) :
    frame.Fits maxFrame ∧ next = file.advance frame.bytes.length ∧
      file.unread = frame.bytes ++ next.unread := by
  unfold readRaw at h
  split at h
  · cases h
  · cases h
  · rename_i hfull
    simp only [] at h
    split at h
    · rename_i hpossible
      cases hpayload : (file.advance lengthBytes).readFull
          (declaredLength (file.unread.take lengthBytes)) with
      | mk buffer afterPayload =>
        rw [hpayload] at h
        cases buffer with
        | none =>
          have hresolve := (Prod.mk.inj h).1
          unfold resolveCut at hresolve
          simp only [] at hresolve
          split at hresolve
          · cases hresolve
          · split at hresolve <;> cases hresolve
        | some payload =>
          simp only [] at h
          cases hhead : afterPayload.readFull headBytes with
          | mk buffer afterHead =>
            rw [hhead] at h
            cases buffer with
            | none =>
              have hresolve := (Prod.mk.inj h).1
              unfold resolveCut at hresolve
              simp only [] at hresolve
              split at hresolve
              · cases hresolve
              · split at hresolve <;> cases hresolve
            | some head =>
              cases h
              obtain ⟨hlength, rfl, hunread⟩ := PositionedFile.readFull_eq_some hpayload
              obtain ⟨hheadLength, rfl, hrest⟩ := PositionedFile.readFull_eq_some hhead
              have hlead : (file.unread.take lengthBytes).length = 4 := by
                rw [List.length_take]
                have hroom : ¬ file.unread.length < lengthBytes := by
                  intro hshort
                  rcases readPrefix_ne_full hshort with hkind | hkind
                  all_goals
                    rw [hkind] at hfull
                    cases hfull
                unfold lengthBytes at hroom ⊢
                omega
              have hbytes : (⟨payload, Digest.fromBytes head⟩ : Frame).bytes =
                  file.unread.take lengthBytes ++ payload ++ head := by
                rw [Frame.bytes, encode, Digest.bytes_fromBytes hheadLength, hlength,
                  declaredLength, Bytes.u32BE_ofBE hlead]
              have hwhole : file.unread = file.unread.take lengthBytes ++
                  (file.advance lengthBytes).unread := by
                rw [PositionedFile.unread_advance, List.take_append_drop]
              have hcount : (⟨payload, Digest.fromBytes head⟩ : Frame).bytes.length =
                  lengthBytes + declaredLength (file.unread.take lengthBytes) +
                    headBytes := by
                rw [Frame.length_bytes, framedLen, hlength]
              have hbound : payload.length < 2 ^ 32 := by
                have hless := @Bytes.ofBE_lt (file.unread.take lengthBytes)
                rw [hlead] at hless
                rw [hlength, declaredLength]
                omega
              refine ⟨⟨by rw [hlength]; exact hpossible, hbound⟩, ?_, ?_⟩
              · rw [hcount, PositionedFile.advance_advance,
                  PositionedFile.advance_advance, Nat.add_assoc]
              · rw [hbytes, List.append_assoc, List.append_assoc, ← hrest, ← hunread,
                  ← hwhole]
    · cases h

theorem readRaw_keeps :
    (readRaw file offset previous maxFrame storage corrupt headOf).2.bytes = file.bytes ∧
      file.position ≤
        (readRaw file offset previous maxFrame storage corrupt headOf).2.position := by
  have hlength := @PositionedFile.readFull_keeps file lengthBytes
  unfold readRaw
  split
  · exact hlength
  · exact hlength
  · rename_i hfull
    have hroom : file.position + lengthBytes ≤ file.bytes.length := by
      have hunread := @PositionedFile.length_unread file
      by_contra hshort
      have hless : file.unread.length < lengthBytes := by
        unfold lengthBytes at hshort ⊢
        omega
      rcases readPrefix_ne_full hless with hkind | hkind
      all_goals
        rw [hkind] at hfull
        cases hfull
    simp only []
    split
    · cases hpayload : (file.advance lengthBytes).readFull
          (declaredLength (file.unread.take lengthBytes)) with
      | mk buffer afterPayload =>
        have hread := @PositionedFile.readFull_keeps (file.advance lengthBytes)
          (declaredLength (file.unread.take lengthBytes))
        rw [hpayload] at hread
        simp only [PositionedFile.bytes_advance, PositionedFile.position_advance] at hread
        have hend : file.position ≤ afterPayload.len := by
          rw [PositionedFile.len, hread.1]
          omega
        cases buffer with
        | none => exact ⟨hread.1, hend⟩
        | some payload =>
          simp only []
          cases hhead : afterPayload.readFull headBytes with
          | mk buffer afterHead =>
            have hbehind := @PositionedFile.readFull_keeps afterPayload headBytes
            rw [hhead] at hbehind
            simp only [] at hbehind
            have hlast : file.position ≤ afterHead.len := by
              rw [PositionedFile.len, hbehind.1, hread.1]
              omega
            cases buffer with
            | none => exact ⟨hbehind.1.trans hread.1, hlast⟩
            | some head =>
              refine ⟨hbehind.1.trans hread.1, ?_⟩
              exact Nat.le_trans (Nat.le_trans (Nat.le_add_right _ _) hread.2) hbehind.2
    · exact ⟨rfl, Nat.le_add_right _ _⟩

theorem eq_replicate_of_shift {hole : Nat} (hhole : 0 < hole) {left right : Bytes} (lead : Bytes)
    (h : List.replicate hole 0 ++ (lead ++ left) = lead ++ right) :
    lead = List.replicate lead.length 0 := by
  obtain ⟨less, rfl⟩ : ∃ less, hole = less + 1 := ⟨hole - 1, by omega⟩
  induction lead with
  | nil => rfl
  | cons first rest ih =>
    rw [List.replicate_succ, List.cons_append, List.cons_append, List.cons_append,
      List.cons.injEq] at h
    obtain ⟨rfl, hrest⟩ := h
    have hshift : List.replicate less 0 ++ 0 :: (rest ++ left) =
        List.replicate (less + 1) 0 ++ (rest ++ left) := by
      rw [List.replicate_succ', List.append_assoc, List.singleton_append]
    rw [hshift] at hrest
    rw [List.length_cons, List.replicate_succ, ← ih hrest]

theorem frame_behind_hole {frame other : Frame} {hole : Nat} {rest : Bytes}
    (hfits : frame.Fits maxFrame) (hhole : 0 < hole)
    (hlength : other.payload.length = frame.payload.length) :
    List.replicate hole 0 ++ frame.bytes ≠ other.bytes ++ rest := by
  intro h
  simp only [Frame.bytes, encode, hlength, List.append_assoc] at h
  have hzero := eq_replicate_of_shift hhole _ h
  have hdeclared := declaredLength_of_fits hfits
  rw [hzero, Bytes.length_u32BE] at hdeclared
  have hpositive := (isPossibleLength_iff.mp hfits.1).1
  rw [← hdeclared] at hpositive
  exact absurd hpositive (by decide)

end LogicalWorks.Journal
