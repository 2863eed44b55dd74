import LogicalWorks.Journal.Resume

/-! Runs over a chain of generations: appends, continuations and reopens in any order.  What
a continuation compacts away has to stay known as walked. -/
namespace LogicalWorks.Journal

/-- What moves a chain: an append, a seal, or opening the current file again. -/
inductive Link where
  | append (expectedTail : JournalPosition) (event : EffectEvent)
  | continued
  | reopened (kind : OpenKind)
  deriving DecidableEq, Repr

inductive ChainStep (wire : Wire) : Handle → Link → Handle → Prop where
  | append {handle next : Handle} {tail : JournalPosition} {event : EffectEvent}
      {ack : DurableAck} (h : handle.compareAndAppend wire tail event = (.ok ack, next)) :
      ChainStep wire handle (.append tail event) next
  | continued {handle closed : Handle} {opened : FileJournal}
      (h : handle.continueAsFile wire = (.ok (some opened), closed)) :
      ChainStep wire handle .continued ⟨closed.disk, opened⟩
  | reopened {handle : Handle} {kind : OpenKind} {journal : FileJournal} {after : Disk}
      (h : openImpl wire (handle.disk.release handle.journal.path) handle.journal.path kind =
        (.ok journal, after)) :
      ChainStep wire handle (.reopened kind) ⟨after, journal⟩

variable {wire : Wire} {handle next : Handle} {kind : OpenKind}

theorem ChainStep.opened (h : ChainStep wire handle .continued next) :
    ∃ closed, handle.continueAsFile wire = (.ok (some next.journal), closed) := by
  cases h with
  | continued hcontinue => exact ⟨_, hcontinue⟩

section Tracking

structure Tracked (wire : Wire) (handle : Handle) : Prop where
  locked : handle.disk.locked handle.journal.path = true
  standing : (∃ kind repaired frames state, Mirrors wire handle kind repaired frames state) ∨
    handle.journal.ownSeal ≠ none ∧
      ∃ frames state, Spoiled wire handle.journal.path frames state handle.disk

theorem tracked_of_open {disk after : Disk} {path : JournalPath} {journal : FileJournal}
    (h : openImpl wire disk path kind = (.ok journal, after)) : Tracked wire ⟨after, journal⟩ := by
  obtain ⟨frames, state, left, repaired, -, -, rfl, rfl, hmirrors⟩ := mirrors_of_open h
  exact ⟨Disk.locked_lock_self _ _, Or.inl ⟨kind, repaired, frames, state, hmirrors⟩⟩

theorem Tracked.appended (lawful : wire.Lawful) (h : Tracked wire handle) {event : EffectEvent}
    {payload : Bytes} (hadmits : Admits wire handle event payload) :
    Tracked wire (handle.appended wire event payload) := by
  refine ⟨h.locked, ?_⟩
  rcases h.standing with ⟨kind, repaired, frames, state, hmirrors⟩ |
    ⟨hclosed, frames, state, hspoiled⟩
  · by_cases hopen : state.ownSeal = none
    · exact Or.inl ⟨kind, repaired, _, _, hmirrors.appended lawful hopen hadmits⟩
    · right
      have hclosed : handle.journal.ownSeal ≠ none := by
        rw [hmirrors.journal]
        exact hopen
      refine ⟨hclosed, frames, state, spoiled_of_closed hmirrors.scanned hopen hmirrors.sized
        hadmits.sized ?_ h.locked⟩
      rw [← Disk.file_of_files hmirrors.file]
      exact file_appended event payload
  · exact Or.inr ⟨hclosed, frames, state,
      hspoiled.extend hadmits.sized (file_appended event payload) h.locked⟩

theorem Tracked.reopened (h : Tracked wire handle) {journal : FileJournal} {after : Disk}
    (hopen : openImpl wire (handle.disk.release handle.journal.path) handle.journal.path kind =
      (.ok journal, after)) :
    journal.events = handle.journal.events ∧
      journal.checkpoint = handle.journal.checkpoint := by
  rcases h.standing with ⟨other, repaired, frames, state, hmirrors⟩ |
    ⟨-, frames, state, hspoiled⟩
  · have hfile := Disk.file_of_files hmirrors.file
    obtain ⟨last, hlast⟩ := openable_of_openImpl hopen hmirrors.sized
      (by rw [Disk.file_release, hfile])
    have hsame : last = state := Except.ok.inj (hlast.scanned.symm.trans hmirrors.scanned)
    subst hsame
    rw [openImpl_framesBytes hlast kind (by rw [Disk.file_release, hfile])] at hopen
    cases hopen
    rw [hmirrors.journal]
    exact ⟨rfl, rfl⟩
  · exact absurd hopen (hspoiled.refuses _ _ _ _ (Disk.file_release _ _ _))

theorem Tracked.kept (lawful : wire.Lawful) (h : Tracked wire handle) {link : Link}
    (hstep : ChainStep wire handle link next) : Tracked wire next := by
  cases hstep with
  | append happend =>
    obtain ⟨-, payload, hadmits, -, rfl⟩ := compareAndAppend_ok.mp happend
    exact h.appended lawful hadmits
  | continued hcontinue =>
    obtain ⟨checkpoint, payload, -, -, -, hopen⟩ := continueAsFile_some hcontinue
    exact tracked_of_open hopen
  | reopened hopen => exact tracked_of_open hopen

theorem tracked_of_run {disk after : Disk} {path : JournalPath} {journal : FileJournal}
    {trace : List (Handle × Link)} {final : Handle} (lawful : wire.Lawful)
    (hopen : openImpl wire disk path kind = (.ok journal, after))
    (run : Run (ChainStep wire) ⟨after, journal⟩ trace final) : Tracked wire final := by
  apply run.always (tracked_of_open hopen)
  intro handle link next htracked hstep
  exact htracked.kept lawful hstep

end Tracking

section Walked

/-- What a checkpoint written by a seal says of the attempts it folds: each seeds a settled
attempt, and the fence holds it above the rung an outcome leaves. -/
structure Continuation.Folds (checkpoint : Continuation) : Prop where
  seeds : ∀ record ∈ checkpoint.settled, ∃ attempt, record.seeded = some attempt ∧
    attempt.key = record.key ∧ attempt.status.isSettled = true
  held : ∀ record ∈ checkpoint.settled, 3 ≤ rank (checkpoint.heldRung record.key)

def LatestIsGreatest (journal : FileJournal) : Prop :=
  ∀ action latest, latestSettled journal.recover.attempts action = some latest →
    ∀ attempt ∈ journal.recover.attempts, attempt.status.isSettled = true →
      attempt.key.action = action → attempt.key.attempt ≤ latest.key.attempt

structure Chained (wire : Wire) (handle : Handle) : Prop where
  tracked : Tracked wire handle
  folded : handle.journal.folded = foldedOf handle.journal.checkpoint
  folds : ∀ checkpoint, handle.journal.checkpoint = some checkpoint → checkpoint.Folds
  covered : ∀ key ∈ handle.journal.recover.attempts.map Attempt.key,
    handle.journal.ladder.get key ≠ none
  climbed : ∀ record ∈ handle.journal.folded, 3 ≤ rank (handle.journal.ladder.get record.key)
  verifiedOnly : ∀ record ∈ handle.journal.folded, ∀ event ∈ handle.journal.events,
    event.key = record.key → event.kind = .verified

theorem Chained.refuses (h : Chained wire handle) {key : EffectKey}
    (haccounts : Accounts handle.journal key) (tail : JournalPosition) :
    ∃ cause, handle.compareAndAppend wire tail (.intentAdmitted key) = (.error cause, handle) := by
  cases happend : handle.compareAndAppend wire tail (.intentAdmitted key) with
  | mk answer next =>
    cases answer with
    | error cause => exact ⟨cause, by rw [compareAndAppend_error happend]⟩
    | ok ack =>
      obtain ⟨-, payload, hadmits, -, -⟩ := compareAndAppend_ok.mp happend
      have hladder : nextAllowedOf (handle.journal.ladder.get key) = some .intentAdmitted :=
        hadmits.ladder
      have hnone : handle.journal.ladder.get key = none := by
        cases hheld : handle.journal.ladder.get key with
        | none => rfl
        | some rung =>
          rw [hheld] at hladder
          exact absurd hladder (nextAllowedOf_some_ne_intentAdmitted rung)
      rcases haccounts with hkey | ⟨record, hrecord, hwalked⟩
      · exact absurd hnone (h.covered key hkey)
      · have hfree := refuseWalked_ok.mp hadmits.walked hnone record hrecord
        rw [EffectEvent.key, hwalked] at hfree
        cases hfree

theorem covered_of_open {disk after : Disk} {path : JournalPath} {journal : FileJournal}
    (h : openImpl wire disk path kind = (.ok journal, after)) :
    ∀ key ∈ journal.recover.attempts.map Attempt.key, journal.ladder.get key ≠ none := by
  obtain ⟨frames, state, left, repaired, -, -, rfl, -⟩ := openImpl_ok h
  intro key hkey hnone
  rw [ladder_ofState, Option.or_eq_none_iff] at hnone
  obtain ⟨hheld, hevents⟩ := hnone
  rw [Index.get_insertAll_eq_none] at hheld hevents
  rcases (mem_keys_recover _ key).mp hkey with hseed | ⟨event, hevent, rfl⟩
  · obtain ⟨attempt, hattempt, rfl⟩ := List.mem_map.mp hseed
    change attempt ∈ seedsOf state.carried at hattempt
    cases hcarried : state.carried with
    | none =>
      rw [hcarried] at hattempt
      cases hattempt
    | some checkpoint =>
      rw [hcarried] at hattempt hheld
      rcases List.mem_append.mp hattempt with hmem | hmem
      · obtain ⟨record, hrecord, hseeded⟩ := List.mem_filterMap.mp hmem
        unfold SettledAttempt.seeded at hseeded
        split at hseeded
        · rename_i status rung _ hrung
          cases hseeded
          apply hheld (record.key, rung) _ rfl
          apply List.mem_append_right
          exact List.mem_filterMap.mpr ⟨record, hrecord, by rw [hrung]; rfl⟩
        · cases hseeded
      · obtain ⟨record, hrecord, hseeded⟩ := List.mem_filterMap.mp hmem
        unfold UnresolvedAttempt.seeded UnresolvedAttempt.recoveredStatus at hseeded
        cases hrung : rungOf record.rungByte with
        | none =>
          rw [hrung] at hseeded
          cases hseeded
        | some rung =>
          have hkeyEq : attempt.key = record.key := by
            rw [hrung] at hseeded
            cases rung with
            | intentAdmitted | dispatchPrepared =>
              cases hseeded
              rfl
            | outcomeObserved | verified => cases hseeded
          apply hheld (record.key, rung) _ hkeyEq.symm
          apply List.mem_append_left
          exact List.mem_filterMap.mpr
            ⟨record, hrecord, by rw [UnresolvedAttempt.rung, hrung]; rfl⟩
  · apply hevents (event.key, event.kind) _ rfl
    exact List.mem_map_of_mem hevent

theorem chained_of_open {disk after : Disk} {path : JournalPath} {journal : FileJournal}
    (h : openImpl wire disk path kind = (.ok journal, after)) (hbase : journal.checkpoint = none) :
    Chained wire ⟨after, journal⟩ := by
  have hcovered := covered_of_open h
  have htracked := tracked_of_open h
  obtain ⟨frames, state, left, repaired, -, -, rfl, -⟩ := openImpl_ok h
  have hnothing : (FileJournal.ofState wire path kind state repaired).folded = [] := by
    change foldedOf state.carried = []
    have hcarried : state.carried = none := hbase
    rw [hcarried]
    rfl
  refine ⟨htracked, rfl, ?_, hcovered, ?_, ?_⟩
  · intro checkpoint hsome
    rw [hbase] at hsome
    cases hsome
  · intro record hrecord
    rw [hnothing] at hrecord
    cases hrecord
  · intro record hrecord
    rw [hnothing] at hrecord
    cases hrecord

theorem events_appended (event : EffectEvent) (payload : Bytes) :
    (handle.appended wire event payload).journal.events = handle.journal.events ++ [event] := by
  unfold FileJournal.events
  exact List.map_append

theorem Chained.appended (lawful : wire.Lawful) (h : Chained wire handle) {event : EffectEvent}
    {payload : Bytes} (hadmits : Admits wire handle event payload) :
    Chained wire (handle.appended wire event payload) := by
  have hfolded : (handle.appended wire event payload).journal.folded = handle.journal.folded :=
    rfl
  have htop : ∀ record ∈ handle.journal.folded, event.key = record.key →
      event.kind = .verified := by
    intro record hrecord hkey
    rcases rank_lt_of_nextAllowed hadmits.ladder with hkind | hlt
    · exact hkind
    · have hclimbed := h.climbed record hrecord
      rw [hkey] at hlt
      have hfour : 4 ≤ rank (some event.kind) := by omega
      exact Option.some.inj (eq_verified_of_rank hfour)
  refine ⟨h.tracked.appended lawful hadmits, h.folded, h.folds, ?_, ?_, ?_⟩
  · intro key hkey
    rw [ladder_appended, Index.get_insert]
    split
    · simp
    · rename_i hother
      apply h.covered
      rw [mem_keys_recover] at hkey ⊢
      rcases hkey with hseed | ⟨other, hmem, rfl⟩
      · exact Or.inl hseed
      · rw [events_appended] at hmem
        rcases List.mem_append.mp hmem with hmem | hmem
        · exact Or.inr ⟨other, hmem, rfl⟩
        · rw [List.mem_singleton.mp hmem] at hother
          exact absurd rfl hother
  · intro record hrecord
    exact Nat.le_trans (h.climbed record hrecord) (rank_appended hadmits record.key)
  · intro record hrecord other hmem hkey
    rw [events_appended] at hmem
    rcases List.mem_append.mp hmem with hmem | hmem
    · exact h.verifiedOnly record hrecord other hmem hkey
    · rw [List.mem_singleton.mp hmem] at hkey ⊢
      exact htop record hrecord hkey

theorem climbed_of_folds {path : JournalPath} {state : ScanState} {repaired : Bool}
    (hfolds : ∀ checkpoint, state.carried = some checkpoint → checkpoint.Folds) :
    ∀ record ∈ foldedOf state.carried,
      3 ≤ rank ((FileJournal.ofState wire path kind state repaired).ladder.get record.key) := by
  intro record hrecord
  rw [ladder_ofState]
  cases hcarried : state.carried with
  | none =>
    rw [hcarried] at hrecord
    cases hrecord
  | some checkpoint =>
    rw [hcarried] at hrecord
    have hheld := (hfolds checkpoint hcarried).held record hrecord
    change 3 ≤ rank (Option.or (checkpoint.heldRung record.key) _)
    cases hrung : checkpoint.heldRung record.key with
    | none =>
      rw [hrung] at hheld
      exact absurd hheld (by decide)
    | some rung =>
      rw [hrung] at hheld
      exact hheld

theorem Chained.reopened (h : Chained wire handle) {journal : FileJournal} {after : Disk}
    (hopen : openImpl wire (handle.disk.release handle.journal.path) handle.journal.path kind =
      (.ok journal, after)) : Chained wire ⟨after, journal⟩ := by
  obtain ⟨hevents, hcheckpoint⟩ := h.tracked.reopened hopen
  have hcovered := covered_of_open hopen
  have htracked := tracked_of_open hopen
  obtain ⟨frames, state, left, repaired, -, -, rfl, -⟩ := openImpl_ok hopen
  have hfolds : ∀ checkpoint, state.carried = some checkpoint → checkpoint.Folds := by
    intro checkpoint hsome
    exact h.folds checkpoint (hcheckpoint.symm.trans hsome)
  have hsame : foldedOf state.carried = handle.journal.folded := by
    rw [h.folded, ← hcheckpoint]
    rfl
  refine ⟨htracked, rfl, hfolds, hcovered, climbed_of_folds hfolds, ?_⟩
  intro record hrecord event hevent
  change record ∈ foldedOf state.carried at hrecord
  rw [hsame] at hrecord
  rw [hevents] at hevent
  exact h.verifiedOnly record hrecord event hevent

variable {checkpoint : Continuation} {payload : Bytes}

theorem rank_settledRung (recovered : Recovered) (key : EffectKey) :
    3 ≤ rank (some (recovered.settledRung key)) := by
  rcases recovered.settledRung_cases key with hrung | hrung
  all_goals
    rw [hrung]
    decide

theorem folds_of_seals (h : Seals wire handle checkpoint payload) : checkpoint.Folds := by
  have hsettled : ∀ record, record ∈ checkpoint.settled ↔ ∃ attempt,
      latestSettled handle.journal.recover.attempts record.action = some attempt ∧
        record = handle.journal.recover.settledRecord attempt := by
    intro record
    rw [h.carries]
    exact Recovered.mem_carried_settled _ record
  refine ⟨?_, ?_⟩
  · intro record hrecord
    obtain ⟨attempt, hlatest, rfl⟩ := (hsettled record).mp hrecord
    exact ⟨attempt, Recovered.seeded_settledRecord _ _, rfl, (latestSettled_mem hlatest).2.1⟩
  · intro record hrecord
    unfold Continuation.heldRung Continuation.heldRungs
    rw [Index.insertAll_append, Index.get_insertAll]
    cases hget : (Index.empty.insertAll (checkpoint.settled.filterMap fun held =>
        held.rung.map fun rung => (held.key, rung))).get record.key with
    | none =>
      exfalso
      obtain ⟨attempt, -, rfl⟩ := (hsettled record).mp hrecord
      rw [Index.get_insertAll_eq_none] at hget
      apply hget (attempt.key, handle.journal.recover.settledRung attempt.key) _ rfl
      exact List.mem_filterMap.mpr ⟨_, hrecord, by simp [Recovered.settledRecord]⟩
    | some rung =>
      obtain ⟨other, hother, hpair⟩ := List.mem_filterMap.mp (Index.mem_of_get_insertAll hget)
      obtain ⟨attempt, -, rfl⟩ := (hsettled other).mp hother
      rw [Recovered.settledRecord, SettledAttempt.rung_new] at hpair
      have hrung := (Prod.mk.inj (Option.some.inj hpair)).2
      rw [← hrung]
      exact rank_settledRung _ _

theorem Chained.settled_of_folded (h : Chained wire handle) {record : SettledAttempt}
    (hrecord : record ∈ handle.journal.folded) :
    ∃ attempt ∈ handle.journal.recover.attempts,
      attempt.key = record.key ∧ attempt.status.isSettled = true := by
  apply Recovered.exists_attempt_foldEventsFrom
    (Recovered.consistent_seeds _ Recovered.consistent_empty)
  · rw [Recovered.attempts_seeds, Recovered.empty, List.nil_append]
    have hfolded := hrecord
    rw [h.folded] at hfolded
    cases hcheckpoint : handle.journal.checkpoint with
    | none =>
      rw [hcheckpoint] at hfolded
      cases hfolded
    | some checkpoint =>
      rw [hcheckpoint] at hfolded
      obtain ⟨attempt, hseeded, hkey, hsettled⟩ :=
        (h.folds checkpoint hcheckpoint).seeds record hfolded
      refine ⟨attempt, ?_, hkey, hsettled⟩
      exact List.mem_append_left _ (List.mem_filterMap.mpr ⟨record, hfolded, hseeded⟩)
  · intro event hevent attempt hattempt hboth
    refine ⟨hboth.1, ?_⟩
    have hkind := h.verifiedOnly record hrecord event hevent (hattempt.symm.trans hboth.1)
    cases event with
    | intentAdmitted key | dispatchPrepared key | outcomeObserved key evidence => cases hkind
    | verified key verification =>
      rw [Recovered.status_observe]
      simp only [EffectEvent.status]
      cases verification.result <;> rfl

theorem seeded_of_unresolved {attempt : Attempt} (h : attempt.status.isSettled = false) :
    ∃ record seeded, attempt.unresolved = some record ∧ record.seeded = some seeded ∧
      seeded.key = attempt.key := by
  unfold Attempt.unresolved
  cases hstatus : attempt.status with
  | prepared => exact ⟨_, ⟨attempt.key, .prepared, none⟩, rfl, rfl, rfl⟩
  | outcomeUnknown => exact ⟨_, ⟨attempt.key, .outcomeUnknown, none⟩, rfl, rfl, rfl⟩
  | applied | notApplied | verified | verificationFailed =>
    rw [hstatus] at h
    cases h

theorem walked_of_settled (h : Seals wire handle checkpoint payload)
    (hgreatest : LatestIsGreatest handle.journal) {attempt : Attempt}
    (hmem : attempt ∈ handle.journal.recover.attempts)
    (hsettled : attempt.status.isSettled = true) :
    ∃ record ∈ checkpoint.settled, record.key.action = attempt.key.action ∧
      attempt.key.attempt ≤ record.key.attempt := by
  obtain ⟨latest, hlatest⟩ := latestSettled_ne_none hmem hsettled
  have haction := (latestSettled_mem hlatest).2.2
  refine ⟨handle.journal.recover.settledRecord latest, ?_, haction,
    hgreatest _ latest hlatest attempt hmem hsettled rfl⟩
  rw [h.carries]
  apply (Recovered.mem_carried_settled _ _).mpr
  refine ⟨latest, ?_, rfl⟩
  rw [Recovered.action_settledRecord, haction]
  exact hlatest

/-- A successor accounts for all its predecessor accounted for, when each action folds its
greatest settled attempt. -/
theorem Chained.accounts_of_seals (h : Chained wire handle)
    (hseals : Seals wire handle checkpoint payload)
    (hgreatest : LatestIsGreatest handle.journal) {opened : FileJournal}
    (hcheckpoint : opened.checkpoint = some checkpoint)
    (hfolded : opened.folded = checkpoint.settled) {key : EffectKey}
    (haccounts : Accounts handle.journal key) : Accounts opened key := by
  have hwalks : ∀ attempt ∈ handle.journal.recover.attempts, attempt.status.isSettled = true →
      key.action = attempt.key.action → key.attempt ≤ attempt.key.attempt →
      Accounts opened key := by
    intro attempt hmem hsettled haction hattempt
    obtain ⟨record, hrecord, hsame, hreach⟩ := walked_of_settled hseals hgreatest hmem hsettled
    right
    refine ⟨record, ?_, ?_⟩
    · rw [hfolded]
      exact hrecord
    · rw [SettledAttempt.alreadyWalked_iff]
      exact ⟨haction.trans hsame.symm, Nat.le_trans hattempt hreach⟩
  rcases haccounts with hkey | ⟨record, hrecord, hwalked⟩
  · obtain ⟨attempt, hmem, rfl⟩ := List.mem_map.mp hkey
    cases hsettled : attempt.status.isSettled with
    | true => exact hwalks attempt hmem hsettled rfl (Nat.le_refl _)
    | false =>
      obtain ⟨record, seeded, hrecord, hseeded, hseededKey⟩ := seeded_of_unresolved hsettled
      left
      rw [mem_keys_recover, hcheckpoint]
      left
      apply List.mem_map.mpr
      refine ⟨seeded, ?_, hseededKey⟩
      apply List.mem_append_right
      apply List.mem_filterMap.mpr
      refine ⟨record, ?_, hseeded⟩
      rw [hseals.carries]
      change record ∈ handle.journal.recover.carried.2
      rw [Recovered.carried_unresolved]
      exact List.mem_filterMap.mpr ⟨attempt, hmem, hrecord⟩
  · obtain ⟨attempt, hmem, hattempt, hsettled⟩ := h.settled_of_folded hrecord
    rw [SettledAttempt.alreadyWalked_iff, ← hattempt] at hwalked
    exact hwalks attempt hmem hsettled hwalked.1 hwalked.2

theorem chained_of_continue (lawful : wire.Lawful) {opened : FileJournal} {closed : Handle}
    (hcontinue : handle.continueAsFile wire = (.ok (some opened), closed)) :
    ∃ checkpoint payload, Seals wire handle checkpoint payload ∧
      opened.checkpoint = some checkpoint ∧ opened.folded = checkpoint.settled ∧
      opened.events = [] ∧ Chained wire ⟨closed.disk, opened⟩ := by
  obtain ⟨checkpoint, payload, hseals, -, -, hopen⟩ := continueAsFile_some hcontinue
  have hfolds := folds_of_seals hseals
  have hcovered := covered_of_open hopen
  have htracked := tracked_of_open hopen
  obtain ⟨-, rfl, -⟩ := opened_of_continue lawful hseals hopen
  have hcarried : ∀ other, (sealedState wire handle.journal.position checkpoint payload).carried =
      some other → other.Folds := by
    intro other hother
    cases hother
    exact hfolds
  refine ⟨checkpoint, payload, hseals, rfl, rfl, rfl, htracked, rfl, hcarried, hcovered,
    climbed_of_folds hcarried, ?_⟩
  intro record _ event hevent
  cases hevent

def EffectEvent.admits : EffectEvent → Option EffectKey
  | .intentAdmitted key => some key
  | .dispatchPrepared _ | .outcomeObserved _ _ | .verified _ _ => none

def Link.admits : Link → Option EffectKey
  | .append _ event => event.admits
  | .continued | .reopened _ => none

/-- The attempts a run admitted, in the order it did, behind those of its first journal. -/
def admissions (start : FileJournal) (trace : List (Handle × Link)) : List EffectKey :=
  start.events.filterMap EffectEvent.admits ++ trace.filterMap fun taken => taken.2.admits

theorem key_of_admits {event : EffectEvent} {key : EffectKey} (h : event.admits = some key) :
    event.key = key := by
  cases event with
  | intentAdmitted admitted => exact Option.some.inj h
  | dispatchPrepared other | outcomeObserved other evidence | verified other verification =>
    cases h

theorem admissions_snoc (start : FileJournal) (trace : List (Handle × Link))
    (taken : Handle × Link) :
    admissions start (trace ++ [taken]) = admissions start trace ++ taken.2.admits.toList := by
  unfold admissions
  rw [List.filterMap_append, List.append_assoc]
  congr 2

theorem Chained.kept (lawful : wire.Lawful) (h : Chained wire handle) {link : Link}
    (hstep : ChainStep wire handle link next) : Chained wire next := by
  cases hstep with
  | append happend =>
    obtain ⟨-, payload, hadmits, -, rfl⟩ := compareAndAppend_ok.mp happend
    exact h.appended lawful hadmits
  | continued hcontinue =>
    obtain ⟨checkpoint, payload, -, -, -, -, hchained⟩ := chained_of_continue lawful hcontinue
    exact hchained
  | reopened hopen => exact h.reopened hopen

theorem Chained.step (lawful : wire.Lawful) (h : Chained wire handle) {link : Link}
    (hgreatest : link = .continued → LatestIsGreatest handle.journal)
    (hstep : ChainStep wire handle link next) :
    (∀ key, Accounts handle.journal key → Accounts next.journal key) ∧
      ∀ key, link.admits = some key → Accounts next.journal key := by
  cases hstep with
  | append happend =>
    rename_i tail event ack
    obtain ⟨-, payload, hadmits, -, rfl⟩ := compareAndAppend_ok.mp happend
    refine ⟨?_, ?_⟩
    · rintro key (hkey | hwalked)
      · left
        rw [mem_keys_recover] at hkey ⊢
        rcases hkey with hseed | ⟨other, hmem, rfl⟩
        · exact Or.inl hseed
        · refine Or.inr ⟨other, ?_, rfl⟩
          rw [events_appended]
          exact List.mem_append_left _ hmem
      · exact Or.inr hwalked
    · intro key hkey
      rw [← key_of_admits hkey]
      apply accounts_of_mem
      rw [events_appended]
      exact List.mem_append_right _ (List.mem_singleton_self _)
  | continued hcontinue =>
    obtain ⟨checkpoint, payload, hseals, hcheckpoint, hfolded, -, -⟩ :=
      chained_of_continue lawful hcontinue
    refine ⟨?_, ?_⟩
    · intro key hkey
      exact h.accounts_of_seals hseals (hgreatest rfl) hcheckpoint hfolded hkey
    · intro key hkey
      cases hkey
  | reopened hopen =>
    obtain ⟨hevents, hcheckpoint⟩ := h.tracked.reopened hopen
    have hchained := h.reopened hopen
    refine ⟨?_, ?_⟩
    · rintro key (hkey | ⟨record, hrecord, hwalked⟩)
      · left
        rw [mem_keys_recover] at hkey ⊢
        rwa [hevents, hcheckpoint]
      · right
        refine ⟨record, ?_, hwalked⟩
        rw [hchained.folded, hcheckpoint, ← h.folded]
        exact hrecord
    · intro key hkey
      cases hkey

theorem chained_of_run {disk after : Disk} {path : JournalPath} {journal : FileJournal}
    {trace : List (Handle × Link)} {final : Handle} (lawful : wire.Lawful)
    (hopen : openImpl wire disk path kind = (.ok journal, after))
    (hbase : journal.checkpoint = none)
    (run : Run (ChainStep wire) ⟨after, journal⟩ trace final) : Chained wire final := by
  apply run.always (chained_of_open hopen hbase)
  intro handle link next hchained hstep
  exact hchained.kept lawful hstep

/-- An attempt admitted anywhere in a chain of generations is refused from then on, when at
every seal the settled attempt each action reports last is its greatest. -/
theorem attempt_never_walked_twice {disk after : Disk} {path : JournalPath}
    {journal : FileJournal} {trace : List (Handle × Link)} {final : Handle}
    (lawful : wire.Lawful) (hopen : openImpl wire disk path kind = (.ok journal, after))
    (hbase : journal.checkpoint = none)
    (run : Run (ChainStep wire) ⟨after, journal⟩ trace final)
    (hgreatest : ∀ taken ∈ trace, taken.2 = .continued → LatestIsGreatest taken.1.journal)
    (key : EffectKey) (hadmitted : key ∈ admissions journal trace) (tail : JournalPosition) :
    ∃ cause, final.compareAndAppend wire tail (.intentAdmitted key) = (.error cause, final) := by
  have haccounts : ∀ key ∈ admissions journal trace, Accounts final.journal key := by
    clear hadmitted key
    induction run with
    | refl =>
      intro key hkey
      rw [admissions, List.filterMap_nil, List.append_nil] at hkey
      obtain ⟨event, hevent, hadmits⟩ := List.mem_filterMap.mp hkey
      rw [← key_of_admits hadmits]
      exact accounts_of_mem hevent
    | snoc before taken ih =>
      have hold := ih (fun earlier hearlier => hgreatest earlier (List.mem_append_left _ hearlier))
      have hlast := hgreatest _ (List.mem_append_right _ (List.mem_singleton_self _))
      obtain ⟨hkept, hnew⟩ := (chained_of_run lawful hopen hbase before).step lawful hlast taken
      intro key hkey
      rw [admissions_snoc, List.mem_append, Option.mem_toList] at hkey
      rcases hkey with hkey | hkey
      · exact hkept key (hold key hkey)
      · exact hnew key hkey
  exact (chained_of_run lawful hopen hbase run).refuses (haccounts key hadmitted) tail

end Walked

namespace PlainWire

def sealing (handle : Handle) : Continuation :=
  ⟨handle.journal.generation + 1, handle.journal.position, handle.journal.carried.1,
    handle.journal.carried.2⟩

def sealingPayload (handle : Handle) : Bytes :=
  checkpointMagic ++ checkpoint.encode (sealing handle)

def continuedHandle (handle : Handle) : Handle :=
  ⟨(handle.sealedDisk plain (sealingPayload handle)).lock (successorPath handle.journal.path),
    .ofState plain (successorPath handle.journal.path) (.continuing handle.journal.continuation)
      (sealedState plain handle.journal.position (sealing handle) (sealingPayload handle)) false⟩

theorem continue_plain {handle : Handle} (hfence : handle.fence = .ok ())
    (hcontinuing : handle.journal.continuing = true) (hpause : handle.journal.pause = none)
    (hsettled : (sealing handle).settled.length ≤ maxCheckpointSettled)
    (hunresolved : (sealing handle).unresolved.length ≤ maxCheckpointUnresolved)
    (hadvances : handle.journal.position.sequence.toNat + 1 < 2 ^ 64)
    (hsized : (plain.frameAt handle.journal.position (sealingPayload handle)).Sized)
    (hnamed : ambiguousBase (successorPath handle.journal.path) = none)
    (hfree : handle.disk.locked (successorPath handle.journal.path) = false) :
    ChainStep plain handle .continued (continuedHandle handle) := by
  have hseals : Seals plain handle (sealing handle) (sealingPayload handle) :=
    ⟨hfence, rfl, hsettled, hunresolved, rfl, hadvances, hsized⟩
  obtain ⟨closed, hcontinue, hdisk⟩ :=
    continueAsFile_of_seals lawful_plain hseals hcontinuing hpause hnamed hfree
  have hstep := ChainStep.continued hcontinue
  rw [hdisk] at hstep
  exact hstep

def eventFrames : JournalPosition → List EffectEvent → List Frame
  | _, [] => []
  | position, event :: rest =>
    plain.frameAt position (eventToBytes event) ::
      eventFrames (plain.after position (eventToBytes event)) rest

def eventsState : ScanState → List EffectEvent → ScanState
  | state, [] => state
  | state, event :: rest =>
    eventsState (state.afterEvent (plain.frameAt state.position (eventToBytes event))
      (plain.after state.position (eventToBytes event)) event) rest

def newerSettled : List EffectEvent :=
  [.intentAdmitted (subject 1 1), .dispatchPrepared (subject 1 1),
    .intentAdmitted (subject 1 2), .dispatchPrepared (subject 1 2),
    .outcomeObserved (subject 1 2) .applied]

def newerDisk : Disk := diskOf base (framesBytes (eventFrames plain.genesis newerSettled))

def newerHandle : Handle :=
  ⟨(newerDisk.write base (framesBytes (eventFrames plain.genesis newerSettled))).lock base,
    .ofState plain base (.continuing .declared) (eventsState (.start plain) newerSettled) false⟩

theorem open_newer :
    openImpl plain newerDisk base (.continuing .declared) =
      (.ok newerHandle.journal, newerHandle.disk) := by
  apply openImpl_framesBytes _ _ rfl
  refine ⟨by decide, rfl, ?_, ?_, ?_, rfl⟩
  all_goals decide +kernel

theorem continue_newer : ChainStep plain newerHandle .continued (continuedHandle newerHandle) := by
  apply continue_plain
  all_goals decide +kernel

theorem newer_refused :
    ∃ cause, (continuedHandle newerHandle).compareAndAppend plain
        (continuedHandle newerHandle).journal.position (.intentAdmitted (subject 1 2)) =
      (.error cause, continuedHandle newerHandle) := by
  apply attempt_never_walked_twice lawful_plain open_newer rfl (.snoc .refl continue_newer)
  · intro taken htaken _
    rw [List.mem_singleton.mp htaken]
    have hsettled : ∀ attempt ∈ newerHandle.journal.recover.attempts,
        attempt.status.isSettled = true → attempt.key = subject 1 2 := by decide +kernel
    intro action latest hlatest attempt hmem hattempt _
    obtain ⟨hlatestMem, hlatestSettled, -⟩ := latestSettled_mem hlatest
    rw [hsettled attempt hmem hattempt, hsettled latest hlatestMem hlatestSettled]
  · decide +kernel

def olderOutcome : EffectEvent := .outcomeObserved (subject 1 1) .applied

def olderSettled : Handle :=
  (continuedHandle newerHandle).appended plain olderOutcome (eventToBytes olderOutcome)

def olderTrace : List (Handle × Link) :=
  [(newerHandle, .continued),
    (continuedHandle newerHandle,
      .append (continuedHandle newerHandle).journal.position olderOutcome)]

theorem run_olderSettled : Run (ChainStep plain) newerHandle olderTrace olderSettled := by
  have hadmits : Admits plain (continuedHandle newerHandle) olderOutcome
      (eventToBytes olderOutcome) := by
    refine ⟨⟨?_, ?_, rfl, ?_, ?_, ?_⟩, ?_, ?_⟩
    all_goals decide +kernel
  exact .snoc (.snoc .refl continue_newer)
    (.append (compareAndAppend_ok.mpr ⟨rfl, _, hadmits, rfl, rfl⟩))

theorem continue_olderSettled :
    ChainStep plain olderSettled .continued (continuedHandle olderSettled) := by
  apply continue_plain
  all_goals decide +kernel

/-- The older attempt settles last, takes the action's record with it through the next
continuation, and the newer attempt is admitted again. -/
theorem newer_attempt_walked_again :
    ∃ journal after trace final ack next,
      openImpl plain newerDisk base (.continuing .declared) = (.ok journal, after) ∧
        journal.checkpoint = none ∧ Run (ChainStep plain) ⟨after, journal⟩ trace final ∧
        (admissions journal trace).Pairwise (fun earlier later =>
          earlier.action = later.action → earlier.attempt < later.attempt) ∧
        subject 1 2 ∈ admissions journal trace ∧
        final.compareAndAppend plain final.journal.position (.intentAdmitted (subject 1 2)) =
          (.ok ack, next) := by
  have hadmits : Admits plain (continuedHandle olderSettled) (.intentAdmitted (subject 1 2))
      (eventToBytes (.intentAdmitted (subject 1 2))) := by
    refine ⟨⟨?_, ?_, rfl, ?_, ?_, ?_⟩, ?_, ?_⟩
    all_goals decide +kernel
  refine ⟨_, _, _, _, _, _, open_newer, rfl, .snoc run_olderSettled continue_olderSettled, ?_, ?_,
    compareAndAppend_ok.mpr ⟨rfl, _, hadmits, rfl, rfl⟩⟩
  all_goals decide +kernel

end PlainWire

end LogicalWorks.Journal
