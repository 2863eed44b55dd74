import LogicalWorks.Journal.Scan

/-! What the search behind a cut length prefix looks for, said without the search: whole
frames whose heads chain, wherever in the tail they stand. -/
namespace LogicalWorks.Journal

variable {wire : Wire}

/-- A frame of an allowed size whose record the tail search reads, chained behind
`previous`. -/
structure Wire.Acknowledged (wire : Wire) (previous : Digest) (frame : Frame) : Prop where
  sized : frame.Sized
  framed : wire.isFramedRecord frame.payload = true
  chained : frame.head = wire.chainOverBytes previous frame.payload

/-- What a tail holds when an acknowledged frame is in it: the cut frame under another
length, the frame behind a payload whose own head is damaged, or any frame that chains from
the thirty-two bytes before it. -/
inductive HoldsFrame (wire : Wire) (previous : Digest) (suffix : Bytes) : Prop where
  | cut (frame : Frame) (right : Bytes) (h : wire.Acknowledged previous frame)
      (hsuffix : suffix = frame.payload ++ frame.head.bytes ++ right)
  | behind (payload : Bytes) (stored : Digest) (next : Frame) (right : Bytes)
      (hpossible : isPossibleLength payload.length maxFrameBytes = true)
      (hframed : wire.isFramedRecord payload = true)
      (h : wire.Acknowledged (wire.chainOverBytes previous payload) next)
      (hsuffix : suffix = payload ++ stored.bytes ++ next.bytes ++ right)
  | later (left : Bytes) (stored : Digest) (next : Frame) (right : Bytes) (hleft : left ≠ [])
      (h : wire.Acknowledged stored next)
      (hsuffix : suffix = left ++ stored.bytes ++ next.bytes ++ right)

def Wire.authenticates (wire : Wire) (previous : Digest) (payload stored : Bytes) : Bool :=
  match wire.headOf previous payload with
  | some head => head.bytes = stored
  | none => false

theorem Wire.authenticates_iff {previous : Digest} {payload stored : Bytes} :
    wire.authenticates previous payload stored = true ↔
      wire.isFramedRecord payload = true ∧
        (wire.chainOverBytes previous payload).bytes = stored := by
  unfold authenticates headOf
  by_cases hframed : wire.isFramedRecord payload = true
  · simp [hframed]
  · simp [hframed]

theorem slice_iff {bytes piece : Bytes} {start stop : Nat} :
    Bytes.slice bytes start stop = some piece ↔
      ∃ left right, bytes = left ++ piece ++ right ∧ left.length = start ∧
        start + piece.length = stop := by
  constructor
  · exact Bytes.slice_eq_some
  · rintro ⟨left, right, rfl, rfl, rfl⟩
    exact Bytes.slice_append_middle left piece right

theorem frameChainsFrom_iff {suffix : Bytes} {place : Nat} {previous : Digest} :
    frameChainsFrom suffix place previous maxFrameBytes wire.authenticates = true ↔
      ∃ left frame right, suffix = left ++ Frame.bytes frame ++ right ∧ left.length = place ∧
        wire.Acknowledged previous frame := by
  unfold frameChainsFrom
  dsimp only
  constructor
  · intro h
    split at h
    · cases h
    · rename_i buffer hbuffer
      split at h
      · rename_i hpossible
        split at h
        · rename_i payload stored hpayload hstored
          obtain ⟨hframed, hhead⟩ := Wire.authenticates_iff.mp h
          obtain ⟨left, behind, hsuffix, hleft, hfour⟩ := slice_iff.mp hbuffer
          obtain ⟨left', behind', hsuffix', hleft', hdeclared⟩ := slice_iff.mp hpayload
          obtain ⟨left'', right, hsuffix'', hleft'', hthirty⟩ := slice_iff.mp hstored
          have hlength : payload.length = declaredLength buffer := by omega
          have hspelled : Bytes.u32BE (UInt32.ofNat payload.length) = buffer := by
            rw [hlength]
            exact Bytes.u32BE_ofBE (by unfold lengthBytes at hfour; omega)
          refine ⟨left, ⟨payload, wire.chainOverBytes previous payload⟩, right, ?_, hleft, ?_,
            hframed, rfl⟩
          · have hfirst : left' = left ++ buffer := by
              have hsame := hsuffix.symm.trans (hsuffix'.trans (List.append_assoc _ _ _))
              exact (List.append_inj hsame.symm (by simp; omega)).1
            have hsecond : left'' = left' ++ payload := by
              have hsame := hsuffix'.symm.trans (hsuffix''.trans (List.append_assoc _ _ _))
              exact (List.append_inj hsame.symm (by simp; omega)).1
            rw [hsuffix'', hsecond, hfirst, Frame.bytes, encode, hspelled, hhead]
            simp only [List.append_assoc]
          · unfold Frame.Sized
            rw [hlength]
            exact hpossible
        · cases h
      · cases h
  · rintro ⟨left, frame, right, rfl, rfl, h⟩
    have hbuffer : Bytes.slice (left ++ frame.bytes ++ right) left.length
        (left.length + lengthBytes) = some (Bytes.u32BE (UInt32.ofNat frame.payload.length)) := by
      refine slice_iff.mpr ⟨left, frame.payload ++ frame.head.bytes ++ right, ?_, rfl, rfl⟩
      simp [Frame.bytes, encode, List.append_assoc]
    have hpayload : Bytes.slice (left ++ frame.bytes ++ right) (left.length + lengthBytes)
        (left.length + lengthBytes + frame.payload.length) = some frame.payload := by
      refine slice_iff.mpr ⟨left ++ Bytes.u32BE (UInt32.ofNat frame.payload.length),
        frame.head.bytes ++ right, ?_, ?_, rfl⟩
      · simp [Frame.bytes, encode, List.append_assoc]
      · rw [List.length_append, Bytes.length_u32BE]
        rfl
    have hstored : Bytes.slice (left ++ frame.bytes ++ right)
        (left.length + lengthBytes + frame.payload.length)
        (left.length + lengthBytes + frame.payload.length + headBytes) =
          some frame.head.bytes := by
      refine slice_iff.mpr ⟨left ++ Bytes.u32BE (UInt32.ofNat frame.payload.length) ++
        frame.payload, right, ?_, ?_, ?_⟩
      · simp [Frame.bytes, encode, List.append_assoc]
      · rw [List.length_append, List.length_append, Bytes.length_u32BE]
        rfl
      · rw [frame.head.length_bytes]
    rw [hbuffer]
    dsimp only
    rw [Frame.declaredLength_bytes h.sized]
    have hsized := h.sized
    unfold Frame.Sized at hsized
    rw [if_pos hsized, hpayload, hstored]
    exact Wire.authenticates_iff.mpr ⟨h.framed, by rw [h.chained]⟩

def Wire.candidate (wire : Wire) (suffix : Bytes) (previous : Digest) (len : Nat) : Bool :=
  match Bytes.slice suffix 0 len, Bytes.slice suffix len (len + headBytes) with
  | some payload, some stored =>
    match wire.headOf previous payload with
    | none => false
    | some implied =>
      implied.bytes = stored ||
        frameChainsFrom suffix (len + headBytes) implied maxFrameBytes wire.authenticates
  | _, _ => false

theorem candidate_iff {suffix : Bytes} {previous : Digest} {len : Nat} :
    wire.candidate suffix previous len = true ↔
      ∃ payload stored right, suffix = payload ++ Digest.bytes stored ++ right ∧
        payload.length = len ∧ wire.isFramedRecord payload = true ∧
        (stored = wire.chainOverBytes previous payload ∨ ∃ next behind,
          right = Frame.bytes next ++ behind ∧
            wire.Acknowledged (wire.chainOverBytes previous payload) next) := by
  unfold Wire.candidate
  constructor
  · intro h
    split at h
    · rename_i payload stored hpayload hstored
      split at h
      · cases h
      · rename_i implied himplied
        unfold Wire.headOf at himplied
        split at himplied
        · rename_i hframed
          cases himplied
          obtain ⟨left, _, hsuffix, hleft, hlength⟩ := slice_iff.mp hpayload
          obtain ⟨front, right, hsuffix', hfront, hthirty⟩ := slice_iff.mp hstored
          obtain rfl := List.length_eq_zero_iff.mp hleft
          have hsame : front = payload := by
            rw [hsuffix', List.nil_append, List.append_assoc] at hsuffix
            exact (List.append_inj hsuffix (by omega)).1
          subst hsame
          refine ⟨front, ⟨stored, by omega⟩, right, hsuffix', hfront, hframed, ?_⟩
          rcases Bool.or_eq_true_iff.mp h with hhead | hchains
          · left
            apply Digest.ext
            exact (of_decide_eq_true hhead).symm
          · right
            obtain ⟨left, next, behind, hbytes, hplace, hnext⟩ := frameChainsFrom_iff.mp hchains
            refine ⟨next, behind, ?_, hnext⟩
            rw [hsuffix', List.append_assoc left] at hbytes
            exact (List.append_inj hbytes (by rw [List.length_append]; omega)).2
        · cases himplied
    · cases h
  · rintro ⟨payload, stored, right, rfl, rfl, hframed, hfound⟩
    have hpayload : Bytes.slice (payload ++ stored.bytes ++ right) 0 payload.length =
        some payload :=
      slice_iff.mpr ⟨[], stored.bytes ++ right, by simp, rfl, by simp⟩
    have hstored : Bytes.slice (payload ++ stored.bytes ++ right) payload.length
        (payload.length + headBytes) = some stored.bytes :=
      slice_iff.mpr ⟨payload, right, rfl, rfl, by rw [stored.length_bytes]⟩
    rw [hpayload, hstored]
    dsimp only
    unfold Wire.headOf
    rw [if_pos hframed]
    apply Bool.or_eq_true_iff.mpr
    rcases hfound with rfl | ⟨next, behind, rfl, hnext⟩
    · left
      exact decide_eq_true rfl
    · right
      refine frameChainsFrom_iff.mpr ⟨payload ++ stored.bytes, next, behind, ?_, ?_, hnext⟩
      · simp only [List.append_assoc]
      · rw [List.length_append, stored.length_bytes]

def Wire.placed (wire : Wire) (suffix : Bytes) (place : Nat) : Bool :=
  match Bytes.slice suffix (place - headBytes) place with
  | some stored =>
    frameChainsFrom suffix place (Digest.fromBytes stored) maxFrameBytes wire.authenticates
  | none => false

theorem placed_iff {suffix : Bytes} {place : Nat} (hplace : headBytes ≤ place) :
    wire.placed suffix place = true ↔
      ∃ left stored next right, suffix = left ++ Digest.bytes stored ++ Frame.bytes next ++ right ∧
        left.length + headBytes = place ∧ wire.Acknowledged stored next := by
  unfold Wire.placed
  constructor
  · intro h
    split at h
    · rename_i stored hstored
      obtain ⟨left, _, hsuffix, hleft, hlength⟩ := slice_iff.mp hstored
      obtain ⟨front, next, right, hsuffix', hfront, hnext⟩ := frameChainsFrom_iff.mp h
      have hthirty : stored.length = headBytes := by omega
      have hsame : front = left ++ stored := by
        rw [hsuffix', List.append_assoc front] at hsuffix
        exact (List.append_inj hsuffix (by rw [List.length_append]; omega)).1
      refine ⟨left, Digest.fromBytes stored, next, right, ?_, by omega, hnext⟩
      rw [hsuffix', hsame, Digest.bytes_fromBytes hthirty]
    · cases h
  · rintro ⟨left, stored, next, right, rfl, rfl, hnext⟩
    have hstored : Bytes.slice (left ++ stored.bytes ++ next.bytes ++ right)
        (left.length + headBytes - headBytes) (left.length + headBytes) = some stored.bytes := by
      refine slice_iff.mpr ⟨left, next.bytes ++ right, ?_, by omega, ?_⟩
      · simp only [List.append_assoc]
      · rw [stored.length_bytes]
        omega
    rw [hstored]
    dsimp only
    rw [Digest.fromBytes_bytes]
    refine frameChainsFrom_iff.mpr ⟨left ++ stored.bytes, next, right, rfl, ?_, hnext⟩
    rw [List.length_append, stored.length_bytes]

theorem holdsAcknowledgedFrame_iff {suffix : Bytes} {previous : Digest} :
    holdsAcknowledgedFrame suffix previous maxFrameBytes wire.headOf = true ↔
      HoldsFrame wire previous suffix := by
  have hsearch : holdsAcknowledgedFrame suffix previous maxFrameBytes wire.headOf =
      (((List.range' 1 (min (suffix.length - headBytes) maxFrameBytes)).any
          (wire.candidate suffix previous)) ||
        (List.range' (headBytes + 1)
          (suffix.length + 1 - (2 * headBytes + lengthBytes + 2))).any (wire.placed suffix)) := rfl
  rw [hsearch, Bool.or_eq_true_iff, List.any_eq_true, List.any_eq_true]
  constructor
  · rintro (⟨len, hlen, h⟩ | ⟨place, hplace, h⟩)
    · obtain ⟨payload, stored, right, rfl, rfl, hframed, hfound⟩ := candidate_iff.mp h
      rw [List.mem_range'_1] at hlen
      have hpossible : isPossibleLength payload.length maxFrameBytes = true := by
        simp only [isPossibleLength, Bool.and_eq_true, decide_eq_true_eq]
        omega
      rcases hfound with rfl | ⟨next, behind, rfl, hnext⟩
      · exact .cut ⟨payload, wire.chainOverBytes previous payload⟩ right ⟨hpossible, hframed, rfl⟩
          rfl
      · refine .behind payload stored next behind hpossible hframed hnext ?_
        simp only [List.append_assoc]
    · rw [List.mem_range'_1] at hplace
      obtain ⟨left, stored, next, right, rfl, hleft, hnext⟩ := (placed_iff (by omega)).mp h
      refine .later left stored next right ?_ hnext rfl
      rintro rfl
      rw [List.length_nil] at hleft
      omega
  · have hlong : ∀ next : Frame, next.Sized →
        lengthBytes + headBytes + 1 ≤ next.bytes.length := by
      intro next hnext
      have hpositive := ((Frame.sized_iff next).mp hnext).1
      rw [Frame.length_bytes, framedLen]
      omega
    have hcandidate : ∀ payload right, suffix = payload ++ right →
        headBytes ≤ right.length → isPossibleLength payload.length maxFrameBytes = true →
        payload.length ∈ List.range' 1 (min (suffix.length - headBytes) maxFrameBytes) := by
      rintro payload right rfl hright hpossible
      simp only [isPossibleLength, Bool.and_eq_true, decide_eq_true_eq] at hpossible
      rw [List.mem_range'_1, List.length_append]
      omega
    intro h
    cases h with
    | cut frame right h hsuffix =>
      left
      refine ⟨frame.payload.length, hcandidate frame.payload (frame.head.bytes ++ right) ?_ ?_
        h.sized, candidate_iff.mpr ⟨frame.payload, frame.head, right, hsuffix, rfl, h.framed,
          Or.inl h.chained⟩⟩
      · rw [hsuffix, List.append_assoc]
      · rw [List.length_append, frame.head.length_bytes]
        omega
    | behind payload stored next right hpossible hframed h hsuffix =>
      left
      refine ⟨payload.length, hcandidate payload (stored.bytes ++ (next.bytes ++ right)) ?_ ?_
        hpossible, candidate_iff.mpr ⟨payload, stored, next.bytes ++ right, ?_, rfl, hframed,
          Or.inr ⟨next, right, rfl, h⟩⟩⟩
      · simp only [hsuffix, List.append_assoc]
      · rw [List.length_append, stored.length_bytes]
        omega
      · simp only [hsuffix, List.append_assoc]
    | later left stored next right hleft h hsuffix =>
      right
      have hpositive := List.length_pos_iff.mpr hleft
      refine ⟨left.length + headBytes, ?_,
        (placed_iff (by omega)).mpr ⟨left, stored, next, right, hsuffix, rfl, h⟩⟩
      rw [List.mem_range'_1, hsuffix]
      simp only [List.length_append, stored.length_bytes]
      have hnext := hlong next h.sized
      unfold headBytes lengthBytes at *
      omega

end LogicalWorks.Journal
