import Mathlib.Data.List.Chain
import Mathlib.Data.List.Perm.Subperm
import LogicalWorks.Journal.ScanFrames
import LogicalWorks.Journal.PlainWire

/-! What a scan that reaches the end of its file has authenticated.  Events are verified
against the running chain, but a closing seal is verified against the position stored
inside it. -/
namespace LogicalWorks.Journal

variable {wire : Wire} {maxEvents : Nat}

def namedPredecessor (wire : Wire) (frame : Frame) : Option JournalPosition :=
  match wire.fromPayload frame.payload with
  | some (.ok checkpoint) => some checkpoint.predecessor
  | _ => none

def basePosition (wire : Wire) : List Frame → JournalPosition
  | [] => wire.genesis
  | first :: _ => (namedPredecessor wire first).getD wire.genesis

def closingPredecessor (wire : Wire) : List Frame → Option JournalPosition
  | [] => none
  | _ :: rest => rest.getLast?.bind (namedPredecessor wire)

theorem basePosition_cons (first : Frame) (rest : List Frame) :
    basePosition wire (first :: rest) = (namedPredecessor wire first).getD wire.genesis := rfl

theorem closingPredecessor_cons (first : Frame) (rest : List Frame) :
    closingPredecessor wire (first :: rest) = rest.getLast?.bind (namedPredecessor wire) := rfl

def HeadsChain (wire : Wire) (frames : List Frame) : Prop :=
  frames.IsChain fun previous frame =>
    frame.head = wire.chainOverBytes previous.head frame.payload

/-- The whole file is authenticated: heads chain from frame to frame, the tail counts the
frames, and no frame before a closing seal can be dropped or moved. -/
structure Authenticated (wire : Wire) (maxEvents : Nat) (frames : List Frame)
    (tail : JournalPosition) : Prop where
  heads : HeadsChain wire frames
  counted : tail.sequence.toNat = (basePosition wire frames).sequence.toNat + frames.length
  refuses : ∀ (first : Frame) (middle : List Frame) (closing : Frame),
    frames = first :: (middle ++ [closing]) → (namedPredecessor wire closing).isSome →
    ∀ others : List Frame, others.Subperm middle → others ≠ middle →
      ∀ scanned, scan wire (framesBytes (first :: (others ++ [closing]))) maxEvents ≠ .ok scanned

/-- What authenticating the whole file takes: its sequences fit, and it is not sealed, or
nothing stands between the first frame and a seal that names where that frame ends. -/
def SealNamesItsFile (wire : Wire) (frames : List Frame) : Prop :=
  (basePosition wire frames).sequence.toNat + frames.length < 2 ^ 64 ∧
    ∀ named, closingPredecessor wire frames = some named →
      frames.length = 2 ∧ some named.head = frames.head?.map Frame.head ∧
        (saturatingSucc named.sequence).toNat = (basePosition wire frames).sequence.toNat + 2

def chainInputs (wire : Wire) (frames : List Frame) : List Bytes :=
  frames.flatMap fun frame =>
    (frames.map Frame.head ++ (frames.filterMap (namedPredecessor wire)).map
      JournalPosition.head).map fun head => head.bytes ++ frame.payload

def DigestsDistinct (wire : Wire) (frames : List Frame) : Prop :=
  ∀ left ∈ chainInputs wire frames, ∀ right ∈ chainInputs wire frames,
    wire.hash left = wire.hash right → left = right

instance (wire : Wire) (frames : List Frame) : Decidable (DigestsDistinct wire frames) :=
  inferInstanceAs (Decidable (∀ left ∈ chainInputs wire frames, ∀ right ∈ chainInputs wire frames,
    wire.hash left = wire.hash right → left = right))

theorem mem_chainInputs_head {frames : List Frame} {frame other : Frame}
    (hframe : frame ∈ frames) (hother : other ∈ frames) :
    other.head.bytes ++ frame.payload ∈ chainInputs wire frames := by
  apply List.mem_flatMap.mpr
  refine ⟨frame, hframe, List.mem_map.mpr ⟨other.head, ?_, rfl⟩⟩
  exact List.mem_append_left _ (List.mem_map_of_mem hother)

theorem mem_chainInputs_named {frames : List Frame} {frame other : Frame}
    {named : JournalPosition} (hframe : frame ∈ frames) (hother : other ∈ frames)
    (hnamed : namedPredecessor wire other = some named) :
    named.head.bytes ++ frame.payload ∈ chainInputs wire frames := by
  apply List.mem_flatMap.mpr
  refine ⟨frame, hframe, List.mem_map.mpr ⟨named.head, ?_, rfl⟩⟩
  apply List.mem_append_right
  exact List.mem_map_of_mem (List.mem_filterMap.mpr ⟨other, hother, hnamed⟩)

theorem namedPredecessor_of_payload {frame : Frame} {checkpoint : Continuation}
    (h : wire.fromPayload frame.payload = some (.ok checkpoint)) :
    namedPredecessor wire frame = some checkpoint.predecessor := by
  unfold namedPredecessor
  rw [h]

theorem namedPredecessor_of_event {frame : Frame} (h : wire.fromPayload frame.payload = none) :
    namedPredecessor wire frame = none := by
  unfold namedPredecessor
  rw [h]

theorem events_chain {frames : List Frame} {state final : ScanState} {previous : Frame}
    (h : scanFrames wire maxEvents state frames = .ok final)
    (hindex : state.index ≠ 0) (hopen : final.ownSeal = none)
    (hprevious : previous.head = state.position.head) :
    HeadsChain wire (previous :: frames) ∧
      final.position.sequence.toNat =
        min (state.position.sequence.toNat + frames.length) (2 ^ 64 - 1) ∧
      ∀ frame ∈ frames, namedPredecessor wire frame = none := by
  induction frames generalizing state previous with
  | nil =>
    cases h
    have hbound : final.position.sequence.toNat < 2 ^ 64 := UInt64.toNat_lt _
    refine ⟨List.isChain_singleton _, ?_, by simp⟩
    rw [List.length_nil]
    omega
  | cons frame rest ih =>
    obtain ⟨-, next, hstep, hrest⟩ := scanFrames_cons.mp h
    have hnext : next.index ≠ 0 := by
      rw [hstep.index_eq]
      omega
    obtain ⟨hchain, hcount, hevents⟩ := ih hrest hnext hstep.head_eq.symm
    cases hstep with
    | carried checkpoint hpayload hseal hzero hhead => exact absurd hzero hindex
    | closing checkpoint hpayload hseal hsome hhead =>
      -- a seal is never taken back, so the state behind it stays sealed
      have hsealed : final.ownSeal ≠ none := by
        cases rest with
        | nil =>
          cases hrest
          simp [ScanState.afterSeal]
        | cons other rest =>
          exact absurd hrest (scanFrames_after_seal (by simp [ScanState.afterSeal])
            other rest final)
      exact absurd hopen hsealed
    | event event hpayload hplain hseal hevent hhead =>
      refine ⟨?_, ?_, ?_⟩
      · apply List.isChain_cons_cons.mpr
        refine ⟨?_, hchain⟩
        rw [hprevious]
        exact hhead
      · rw [hcount]
        change min ((saturatingSucc state.position.sequence).toNat + _) _ = _
        rw [toNat_saturatingSucc, List.length_cons]
        omega
      · intro other hother
        rcases List.mem_cons.mp hother with rfl | hother
        · exact namedPredecessor_of_event hpayload
        · exact hevents other hother

/-- The first frame leaves the scan unsealed, where the file says its chain begins. -/
theorem first_frame {first : Frame} {next : ScanState}
    (h : FrameStep wire (.start wire) first next) (rest : List Frame) :
    next.ownSeal = none ∧ next.entries.length ≤ 1 ∧
      next.position.sequence =
        saturatingSucc (basePosition wire (first :: rest)).sequence := by
  rw [basePosition_cons]
  cases h with
  | carried checkpoint hpayload hseal hindex hhead =>
    rw [namedPredecessor_of_payload hpayload]
    exact ⟨rfl, by simp [ScanState.afterCarried, ScanState.pass, ScanState.start], rfl⟩
  | closing checkpoint hpayload hseal hindex hhead => exact absurd rfl hindex
  | event event hpayload hplain hseal hevent hhead =>
    rw [namedPredecessor_of_event hpayload]
    exact ⟨rfl, by simp [ScanState.afterEvent, ScanState.start], rfl⟩

theorem entries_length_le {state final : ScanState} {frames : List Frame}
    (h : scanFrames wire maxEvents state frames = .ok final) :
    state.entries.length ≤ final.entries.length := by
  apply scanFrames_induct (P := fun later : ScanState =>
    state.entries.length ≤ later.entries.length) h (Nat.le_refl _)
  intro frame hframe before after hbefore hstep
  cases hstep with
  | carried checkpoint hpayload hseal hindex hhead => exact hbefore
  | closing checkpoint hpayload hseal hindex hhead => exact hbefore
  | event event hpayload hplain hseal hevent hhead =>
    simp only [ScanState.afterEvent, List.length_append]
    omega

/-- An accepted file is empty, or a first frame with events behind it, or those and one
closing seal. -/
theorem scanFrames_shape {frames : List Frame} {final : ScanState}
    (h : scanFrames wire maxEvents (.start wire) frames = .ok final) :
    frames = [] ∨ ∃ first rest next, frames = first :: rest ∧
      FrameStep wire (.start wire) first next ∧ (.start wire : ScanState).entries.length < maxEvents ∧
      ((scanFrames wire maxEvents next rest = .ok final ∧ final.ownSeal = none) ∨
        ∃ middle closing checkpoint before, rest = middle ++ [closing] ∧
          scanFrames wire maxEvents next middle = .ok before ∧ before.ownSeal = none ∧
          before.entries.length < maxEvents ∧
          wire.fromPayload closing.payload = some (.ok checkpoint) ∧
          closing.head = wire.chainOverBytes checkpoint.predecessor.head closing.payload ∧
          final = before.afterSeal closing
            (wire.after checkpoint.predecessor closing.payload) checkpoint) := by
  cases frames with
  | nil => exact Or.inl rfl
  | cons first rest =>
    right
    obtain ⟨hroom, next, hfirst, hrest⟩ := scanFrames_cons.mp h
    refine ⟨first, rest, next, rfl, hfirst, hroom, ?_⟩
    obtain ⟨hopen, -, -⟩ := first_frame hfirst rest
    have hindex : next.index ≠ 0 := by
      rw [hfirst.index_eq]
      omega
    rcases List.eq_nil_or_concat rest with rfl | ⟨middle, last, rfl⟩
    · cases hrest
      exact Or.inl ⟨rfl, hopen⟩
    · rw [List.concat_eq_append] at hrest ⊢
      obtain ⟨before, hmiddle, hlast⟩ := scanFrames_append.mp hrest
      obtain ⟨hheld, hstep⟩ := scanFrames_single.mp hlast
      have hbefore : before.index ≠ 0 := by
        rw [scanFrames_index hmiddle]
        omega
      cases hstep with
      | carried checkpoint hpayload hseal hzero hhead => exact absurd hzero hbefore
      | closing checkpoint hpayload hseal hsome hhead =>
        exact Or.inr ⟨middle, last, checkpoint, before, rfl, hmiddle, hseal, hheld, hpayload,
          hhead, rfl⟩
      | event event hpayload hplain hseal hevent hhead =>
        exact Or.inl ⟨hrest, hseal⟩

theorem authenticated_unsealed {first : Frame} {rest : List Frame} {next final : ScanState}
    (hfirst : FrameStep wire (.start wire) first next)
    (hrest : scanFrames wire maxEvents next rest = .ok final) (hopen : final.ownSeal = none) :
    Authenticated wire maxEvents (first :: rest) final.position ↔
      SealNamesItsFile wire (first :: rest) := by
  have hbound : final.position.sequence.toNat < 2 ^ 64 := UInt64.toNat_lt _
  obtain ⟨-, -, hsequence⟩ := first_frame hfirst rest
  have hindex : next.index ≠ 0 := by
    rw [hfirst.index_eq]
    omega
  obtain ⟨hchain, hcount, hevents⟩ := events_chain hrest hindex hopen hfirst.head_eq.symm
  rw [hsequence, toNat_saturatingSucc] at hcount
  have hunsealed : closingPredecessor wire (first :: rest) = none := by
    rw [closingPredecessor_cons]
    cases hlast : rest.getLast? with
    | none => rfl
    | some last => exact hevents last (List.mem_of_getLast? hlast)
  constructor
  · intro h
    have hcounted := h.counted
    refine ⟨by omega, ?_⟩
    intro named hnamed
    rw [hunsealed] at hnamed
    cases hnamed
  · intro h
    have hfits := h.1
    refine ⟨hchain, ?_, ?_⟩
    · rw [hcount, List.length_cons] at *
      omega
    · intro other middle closing hframes hsome
      cases hframes
      rw [hevents closing (by simp)] at hsome
      cases hsome

theorem middle_eq_nil {first closing : Frame} {middle : List Frame} {next before : ScanState}
    {checkpoint : Continuation} {position : JournalPosition}
    (hsized : ∀ frame ∈ first :: (middle ++ [closing]), frame.Sized)
    (hroom : (.start wire : ScanState).entries.length < maxEvents)
    (hfirst : FrameStep wire (.start wire) first next)
    (hmiddle : scanFrames wire maxEvents next middle = .ok before)
    (hheld : before.entries.length < maxEvents)
    (hpayload : wire.fromPayload closing.payload = some (.ok checkpoint))
    (hhead : closing.head = wire.chainOverBytes checkpoint.predecessor.head closing.payload)
    (h : Authenticated wire maxEvents (first :: (middle ++ [closing])) position) :
    middle = [] := by
  have hopen := (first_frame hfirst []).1
  have hindex : next.index ≠ 0 := by
    rw [hfirst.index_eq]
    omega
  have hnamed := namedPredecessor_of_payload hpayload
  by_contra hne
  -- dropping everything between the first frame and the seal is not noticed
  have hshort : scanFrames wire maxEvents (.start wire) [first, closing] =
      .ok (next.afterSeal closing (wire.after checkpoint.predecessor closing.payload)
        checkpoint) := by
    refine scanFrames_cons.mpr ⟨hroom, next, hfirst, scanFrames_single.mpr ⟨?_, ?_⟩⟩
    · exact Nat.lt_of_le_of_lt (entries_length_le hmiddle) hheld
    · exact .closing checkpoint hpayload hopen hindex hhead
  have hboth : ∀ frame ∈ [first, closing], frame.Sized := by
    intro frame hframe
    apply hsized
    simp only [List.mem_cons, List.not_mem_nil, or_false] at hframe
    rcases hframe with rfl | rfl
    · simp
    · simp
  have hscanned := @scan_framesBytes wire maxEvents _ hboth
  rw [hshort] at hscanned
  exact h.refuses first middle closing rfl (by rw [hnamed]; rfl) []
    (List.nil_subperm) (fun hnil => hne hnil.symm) _ hscanned

theorem authenticated_iff {frames : List Frame} {final : ScanState}
    (hsized : ∀ frame ∈ frames, frame.Sized)
    (hscan : scanFrames wire maxEvents (.start wire) frames = .ok final)
    (hdistinct : DigestsDistinct wire frames) :
    Authenticated wire maxEvents frames final.position ↔ SealNamesItsFile wire frames := by
  rcases scanFrames_shape hscan with rfl |
    ⟨first, rest, next, rfl, hfirst, hroom, ⟨hrest, hopen⟩ |
      ⟨middle, closing, checkpoint, before, rfl, hmiddle, hseal, hheld, hpayload, hhead, rfl⟩⟩
  · -- an empty file
    cases hscan
    constructor
    · intro _
      exact ⟨(by decide : 0 + 0 < 2 ^ 64), by simp [closingPredecessor]⟩
    · intro _
      refine ⟨List.isChain_nil, by simp [basePosition, ScanState.start], ?_⟩
      intro first middle closing hframes
      cases hframes
  · -- a file that was never sealed
    exact authenticated_unsealed hfirst hrest hopen
  · -- a file its own seal closes
    have hnamed := namedPredecessor_of_payload hpayload
    have hclosing : closingPredecessor wire (first :: (middle ++ [closing])) =
        some checkpoint.predecessor := by
      simp [closingPredecessor_cons, hnamed]
    have htail : (before.afterSeal closing (wire.after checkpoint.predecessor closing.payload)
        checkpoint).position.sequence.toNat =
          min (checkpoint.predecessor.sequence.toNat + 1) (2 ^ 64 - 1) :=
      toNat_saturatingSucc _
    constructor
    · intro h
      have hempty := middle_eq_nil hsized hroom hfirst hmiddle hheld hpayload hhead h
      subst hempty
      have hcounted := h.counted
      rw [htail] at hcounted
      simp only [List.nil_append, List.length_cons, List.length_nil] at hcounted
      refine ⟨by simp only [List.nil_append, List.length_cons, List.length_nil]; omega, ?_⟩
      intro named hsame
      rw [hclosing] at hsame
      cases hsame
      refine ⟨rfl, ?_, by rw [toNat_saturatingSucc]; exact hcounted⟩
      have hpair := (List.isChain_pair.mp h.heads)
      have hnamedInput : checkpoint.predecessor.head.bytes ++ closing.payload ∈
          chainInputs wire (first :: ([] ++ [closing])) :=
        mem_chainInputs_named (by simp) (by simp : closing ∈ _) hnamed
      have hfirstInput : first.head.bytes ++ closing.payload ∈
          chainInputs wire (first :: ([] ++ [closing])) :=
        mem_chainInputs_head (by simp) (by simp)
      have hinputs := hdistinct _ hnamedInput _ hfirstInput (hhead.symm.trans hpair)
      have hheads := List.append_cancel_right hinputs
      simp only [List.nil_append, List.head?_cons, Option.map_some, Option.some.injEq]
      exact Digest.ext hheads
    · rintro ⟨hfits, hseals⟩
      obtain ⟨hlength, hsame, hnumber⟩ := hseals _ hclosing
      have hempty : middle = [] := by
        simp only [List.length_cons, List.length_append, List.length_nil] at hlength
        exact List.length_eq_zero_iff.mp (by omega)
      subst hempty
      simp only [List.nil_append, List.length_cons, List.length_nil, List.head?_cons,
        Option.map_some, Option.some.injEq] at hfits hsame hnumber ⊢
      refine ⟨List.isChain_pair.mpr (by rw [← hsame]; exact hhead), ?_, ?_⟩
      · rw [htail, ← toNat_saturatingSucc]
        exact hnumber
      · intro other between last hframes hsome others hsub hne
        have hbetween : between = [] := by
          have hlengths := congrArg List.length hframes
          simp only [List.length_cons, List.length_append, List.length_nil] at hlengths
          exact List.length_eq_zero_iff.mp (by omega)
        subst hbetween
        exact absurd (List.subperm_nil.mp hsub) hne

/-- Every file the scan reads to its end is whole frames, authenticated exactly when its
closing seal cannot hide one. -/
theorem scan_authenticates_iff {file : Bytes} {scanned : Scanned} {offset : Nat}
    (hscan : scan wire file maxEvents = .ok scanned) (hstop : scanned.stop = .complete offset) :
    ∃ frames, file = framesBytes frames ∧ (∀ frame ∈ frames, frame.Sized) ∧
      (DigestsDistinct wire frames →
        (Authenticated wire maxEvents frames scanned.tail ↔ SealNamesItsFile wire frames)) := by
  obtain ⟨frames, final, hfile, hsized, hframes, rfl⟩ := scan_complete hscan hstop
  exact ⟨frames, hfile, hsized, fun hdistinct => authenticated_iff hsized hframes hdistinct⟩

namespace PlainWire

def secondEvent : Frame :=
  chained plain firstEvent.head (eventToBytes (.dispatchPrepared (subject 1 1)))

theorem authenticated_sealed_event : Authenticated plain maxJournalEvents
    [firstEvent, sealAt ⟨1, firstEvent.head⟩]
    ⟨2, (sealAt ⟨1, firstEvent.head⟩).head⟩ := by
  have hscan : scan plain (framesBytes [firstEvent, sealAt ⟨1, firstEvent.head⟩])
      maxJournalEvents = .ok ⟨[⟨⟨1, firstEvent.head⟩, .intentAdmitted (subject 1 1)⟩], none,
        some ⟨2, ⟨1, firstEvent.head⟩, [], []⟩, plain.genesis,
        ⟨2, (sealAt ⟨1, firstEvent.head⟩).head⟩,
        .complete (framesBytes [firstEvent, sealAt ⟨1, firstEvent.head⟩]).length⟩ := by
    decide +kernel
  have hsized : ∀ frame ∈ [firstEvent, sealAt ⟨1, firstEvent.head⟩], frame.Sized := by
    decide +kernel
  obtain ⟨frames, hfile, hframes, hiff⟩ := scan_authenticates_iff hscan rfl
  have hsame := framesBytes_injective hsized hframes hfile
  subst hsame
  apply (hiff (by decide +kernel)).mpr
  refine ⟨by decide +kernel, ?_⟩
  intro named hnamed
  have hseal : closingPredecessor plain [firstEvent, sealAt ⟨1, firstEvent.head⟩] =
      some ⟨1, firstEvent.head⟩ := by
    decide +kernel
  rw [hseal] at hnamed
  cases hnamed
  exact ⟨rfl, rfl, by decide +kernel⟩

/-- Two committed events under the journal's own seal: the scan accepts the file, and
accepts it as well with the second event gone. -/
theorem scan_accepts_dropped_event :
    (scan plain (framesBytes [firstEvent, secondEvent, sealAt ⟨2, secondEvent.head⟩])
        maxJournalEvents).isOk = true ∧
      (scan plain (framesBytes [firstEvent, sealAt ⟨2, secondEvent.head⟩])
        maxJournalEvents).isOk = true ∧
      ∀ tail, ¬ Authenticated plain maxJournalEvents
        [firstEvent, secondEvent, sealAt ⟨2, secondEvent.head⟩] tail := by
  have hdropped : (scan plain (framesBytes [firstEvent, sealAt ⟨2, secondEvent.head⟩])
      maxJournalEvents).isOk = true := by
    decide +kernel
  refine ⟨by decide +kernel, hdropped, ?_⟩
  intro tail h
  have hrefused := h.refuses firstEvent [secondEvent] (sealAt ⟨2, secondEvent.head⟩) rfl
    (by decide +kernel) [] List.nil_subperm (by decide)
  cases hscan : scan plain (framesBytes (firstEvent :: ([] ++ [sealAt ⟨2, secondEvent.head⟩])))
      maxJournalEvents with
  | error cause =>
    simp only [List.nil_append] at hscan
    rw [hscan] at hdropped
    cases hdropped
  | ok scanned => exact hrefused scanned hscan

end PlainWire

end LogicalWorks.Journal
