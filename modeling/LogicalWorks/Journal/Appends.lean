import LogicalWorks.Journal.Live

/-! Runs of accepted appends: what they leave in the file, in the handle and on the ladder. -/
namespace LogicalWorks.Journal

/-- Append the events one after the other, each at the running tail, while they are
accepted. -/
def Handle.appendEach (wire : Wire) (handle : Handle) :
    List EffectEvent → Except JournalError (List DurableAck) × Handle
  | [] => (.ok [], handle)
  | event :: rest =>
    match handle.compareAndAppend wire handle.journal.position event with
    | (.error cause, handle) => (.error cause, handle)
    | (.ok ack, handle) =>
      match handle.appendEach wire rest with
      | (.error cause, handle) => (.error cause, handle)
      | (.ok acks, handle) => (.ok (ack :: acks), handle)

variable {wire : Wire} {handle final : Handle} {events : List EffectEvent}
  {acks : List DurableAck}

theorem appendEach_cons {event : EffectEvent} :
    handle.appendEach wire (event :: events) = (.ok acks, final) ↔
      ∃ payload rest, Admits wire handle event payload ∧
        acks = ⟨wire.after handle.journal.position payload, .processCrash⟩ :: rest ∧
        (handle.appended wire event payload).appendEach wire events = (.ok rest, final) := by
  rw [Handle.appendEach]
  constructor
  · intro h
    split at h
    · cases h
    · rename_i ack next hfirst
      obtain ⟨-, payload, hadmits, rfl, rfl⟩ := compareAndAppend_ok.mp hfirst
      split at h
      · cases h
      · rename_i rest final' hrest
        cases h
        exact ⟨payload, rest, hadmits, rfl, hrest⟩
  · rintro ⟨payload, rest, hadmits, rfl, hrest⟩
    have hfirst := compareAndAppend_ok.mpr ⟨rfl, payload, hadmits, rfl, rfl⟩
    rw [hfirst]
    simp only [hrest]

theorem appendEach_single {event : EffectEvent} {payload : Bytes}
    (h : Admits wire handle event payload) :
    handle.appendEach wire [event] =
      (.ok [⟨wire.after handle.journal.position payload, .processCrash⟩],
        handle.appended wire event payload) :=
  appendEach_cons.mpr ⟨payload, [], h, rfl, rfl⟩

theorem appendEach_keeps {P : Handle → Prop}
    (h : handle.appendEach wire events = (.ok acks, final)) (hstart : P handle)
    (hstep : ∀ before event payload, P before → Admits wire before event payload →
      P (before.appended wire event payload)) : P final := by
  induction events generalizing handle acks with
  | nil =>
    cases h
    exact hstart
  | cons event rest ih =>
    obtain ⟨payload, others, hadmits, -, hrest⟩ := appendEach_cons.mp h
    exact ih hrest (hstep handle event payload hstart hadmits)

@[simp] theorem path_appended (event : EffectEvent) (payload : Bytes) :
    (handle.appended wire event payload).journal.path = handle.journal.path := rfl

@[simp] theorem ladder_appended (event : EffectEvent) (payload : Bytes) :
    (handle.appended wire event payload).journal.ladder =
      handle.journal.ladder.insert event.key event.kind := rfl

@[simp] theorem file_appended (event : EffectEvent) (payload : Bytes) :
    (handle.appended wire event payload).file =
      handle.file ++ (wire.frameAt handle.journal.position payload).bytes :=
  Disk.file_write_self _ _ _

theorem path_appendEach (h : handle.appendEach wire events = (.ok acks, final)) :
    final.journal.path = handle.journal.path := by
  apply appendEach_keeps (P := fun after => after.journal.path = handle.journal.path) h rfl
  intro before event payload hbefore _
  exact hbefore

theorem ladder_appendEach (h : handle.appendEach wire events = (.ok acks, final)) :
    final.journal.ladder = handle.journal.ladder.insertAll (rungs events) := by
  induction events generalizing handle acks with
  | nil =>
    cases h
    rfl
  | cons event rest ih =>
    obtain ⟨payload, others, -, -, hrest⟩ := appendEach_cons.mp h
    rw [ih hrest]
    rfl

theorem file_appendEach (h : handle.appendEach wire events = (.ok acks, final)) :
    ∃ frames : List Frame, frames.length = events.length ∧ (∀ frame ∈ frames, frame.Sized) ∧
      final.file = handle.file ++ framesBytes frames := by
  induction events generalizing handle acks with
  | nil =>
    cases h
    exact ⟨[], rfl, by simp, by simp⟩
  | cons event rest ih =>
    obtain ⟨payload, others, hadmits, -, hrest⟩ := appendEach_cons.mp h
    obtain ⟨frames, hlength, hsized, hfile⟩ := ih hrest
    refine ⟨wire.frameAt handle.journal.position payload :: frames, ?_, ?_, ?_⟩
    · rw [List.length_cons, List.length_cons, hlength]
    · intro frame hframe
      rcases List.mem_cons.mp hframe with rfl | hframe
      · exact hadmits.sized
      · exact hsized frame hframe
    · rw [hfile, file_appended, framesBytes_cons, List.append_assoc]

theorem Mirrors.appendEach {kind : OpenKind} {repaired : Bool} {frames : List Frame}
    {state : ScanState} (lawful : wire.Lawful)
    (hmirrors : Mirrors wire handle kind repaired frames state) (hseal : state.ownSeal = none)
    (h : handle.appendEach wire events = (.ok acks, final)) :
    ∃ frames state', Mirrors wire final kind repaired frames state' ∧ state'.ownSeal = none ∧
      state'.carried = state.carried ∧ state'.chainFrom = state.chainFrom ∧
      state'.entries.map JournalEntry.event = state.entries.map JournalEntry.event ++ events := by
  induction events generalizing handle acks frames state with
  | nil =>
    cases h
    exact ⟨frames, state, hmirrors, hseal, rfl, rfl, by simp⟩
  | cons event rest ih =>
    obtain ⟨payload, others, hadmits, -, hrest⟩ := appendEach_cons.mp h
    obtain ⟨frames', state', hfinal, hopen, hcarried, hchain, hentries⟩ :=
      ih (hmirrors.appended lawful hseal hadmits) hseal hrest
    refine ⟨frames', state', hfinal, hopen, hcarried, hchain, ?_⟩
    rw [hentries]
    simp [ScanState.afterEvent]

section Ladder

def rank : Option EventKind → Nat
  | none => 0
  | some .intentAdmitted => 1
  | some .dispatchPrepared => 2
  | some .outcomeObserved => 3
  | some .verified => 4

theorem eq_verified_of_rank {last : Option EventKind} (h : 4 ≤ rank last) :
    last = some .verified := by
  cases last with
  | none => exact absurd h (by decide)
  | some kind =>
    cases kind with
    | verified => rfl
    | intentAdmitted | dispatchPrepared | outcomeObserved => exact absurd h (by decide)

theorem rank_lt_of_nextAllowed {last : Option EventKind} {kind : EventKind}
    (h : nextAllowedOf last = some kind) :
    kind = .verified ∨ rank last < rank (some kind) := by
  cases last with
  | none =>
    cases h
    exact Or.inr (by decide)
  | some before =>
    cases before with
    | intentAdmitted =>
      cases h
      exact Or.inr (by decide)
    | dispatchPrepared =>
      cases h
      exact Or.inr (by decide)
    | outcomeObserved | verified =>
      cases h
      exact Or.inl rfl

theorem rank_le_four (last : Option EventKind) : rank last ≤ 4 := by
  cases last with
  | none => decide
  | some kind => cases kind <;> decide

theorem rank_le_of_nextAllowed {last : Option EventKind} {kind : EventKind}
    (h : nextAllowedOf last = some kind) : rank last ≤ rank (some kind) := by
  rcases rank_lt_of_nextAllowed h with rfl | hlt
  · exact rank_le_four last
  · omega

theorem rank_appended {event : EffectEvent} {payload : Bytes}
    (h : Admits wire handle event payload) (key : EffectKey) :
    rank (handle.journal.ladder.get key) ≤
      rank ((handle.appended wire event payload).journal.ladder.get key) := by
  rw [ladder_appended, Index.get_insert]
  split
  · rename_i hkey
    rw [hkey]
    exact rank_le_of_nextAllowed h.ladder
  · exact Nat.le_refl _

theorem rank_appendEach (h : handle.appendEach wire events = (.ok acks, final))
    (key : EffectKey) :
    rank (handle.journal.ladder.get key) ≤ rank (final.journal.ladder.get key) := by
  apply appendEach_keeps (P := fun after =>
    rank (handle.journal.ladder.get key) ≤ rank (after.journal.ladder.get key)) h (Nat.le_refl _)
  intro before event payload hbefore hadmits
  exact Nat.le_trans hbefore (rank_appended hadmits key)

theorem rank_of_mem_appendEach (h : handle.appendEach wire events = (.ok acks, final))
    {event : EffectEvent} (hmem : event ∈ events) :
    rank (some event.kind) ≤ rank (final.journal.ladder.get event.key) ∧
      (handle.journal.ladder.get event.key = some .verified ∨
        rank (handle.journal.ladder.get event.key) <
          rank (final.journal.ladder.get event.key)) := by
  induction events generalizing handle acks with
  | nil => cases hmem
  | cons first rest ih =>
    obtain ⟨payload, others, hadmits, -, hrest⟩ := appendEach_cons.mp h
    rcases List.mem_cons.mp hmem with rfl | hmem
    · have hup := rank_appendEach hrest event.key
      rw [ladder_appended, Index.get_insert_self] at hup
      refine ⟨hup, ?_⟩
      rcases rank_lt_of_nextAllowed hadmits.ladder with hkind | hlt
      · by_cases hverified : handle.journal.ladder.get event.key = some .verified
        · exact Or.inl hverified
        · right
          have hbelow : rank (handle.journal.ladder.get event.key) < 4 := by
            apply Nat.lt_of_not_le
            intro hfour
            exact hverified (eq_verified_of_rank hfour)
          rw [hkind] at hup
          exact Nat.lt_of_lt_of_le hbelow hup
      · exact Or.inr (Nat.lt_of_lt_of_le hlt hup)
    · obtain ⟨hup, hmove⟩ := ih hrest hmem
      refine ⟨hup, ?_⟩
      have hfirst := rank_appended hadmits event.key
      rcases hmove with hverified | hlt
      · rw [hverified] at hfirst
        by_cases hhere : handle.journal.ladder.get event.key = some .verified
        · exact Or.inl hhere
        · right
          have hfinal := rank_appendEach hrest event.key
          rw [hverified] at hfinal
          apply Nat.lt_of_lt_of_le _ hfinal
          apply Nat.lt_of_not_le
          intro hfour
          exact hhere (eq_verified_of_rank hfour)
      · exact Or.inr (Nat.lt_of_le_of_lt hfirst hlt)

end Ladder

end LogicalWorks.Journal
