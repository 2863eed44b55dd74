import LogicalWorks.Journal.Chain

/-! What a successor reports of its predecessor's attempts.  Unresolved work is carried
whole; of an action's settled attempts one is carried, and which one decides what is kept. -/
namespace LogicalWorks.Journal

variable {wire : Wire} {handle next : Handle} {kind : OpenKind}

def Recovered.prepared (recovered : Recovered) : List EffectKey :=
  (recovered.attempts.filter fun attempt => attempt.status = .prepared).map Attempt.key

def lastAdmitted (admitted : List EffectKey) (attempts : List Attempt) (action : ActionId) :
    Option Attempt :=
  (admitted.filterMap fun key => attempts.find? fun attempt =>
    attempt.key = key && attempt.status.isSettled && attempt.key.action = action).getLast?

structure Carries (admitted : List EffectKey) (before after : Recovered) : Prop where
  uncertain : after.uncertain = before.uncertain
  prepared : after.prepared = before.prepared
  settled : ∀ action attempt, lastAdmitted admitted before.attempts action = some attempt →
    after.status attempt.key = some attempt.status ∧
      after.verification attempt.key = attempt.verification

def ListsLastAdmitted (admitted : List EffectKey) (attempts : List Attempt) : Prop :=
  ∀ action attempt, lastAdmitted admitted attempts action = some attempt →
    latestSettled attempts action = some attempt

theorem lastAdmitted_mem {admitted : List EffectKey} {attempts : List Attempt}
    {action : ActionId} {attempt : Attempt}
    (h : lastAdmitted admitted attempts action = some attempt) :
    attempt ∈ attempts ∧ attempt.status.isSettled = true ∧ attempt.key.action = action := by
  obtain ⟨key, -, hfind⟩ := List.mem_filterMap.mp (List.mem_of_getLast? h)
  have hholds := List.find?_some hfind
  simp only [Bool.and_eq_true, decide_eq_true_eq] at hholds
  exact ⟨List.mem_of_find?_eq_some hfind, hholds.1.2, hholds.2⟩

section Seeds

variable {recovered : Recovered} {checkpoint : Continuation} {payload : Bytes}

theorem seeded_unresolved (attempt : Attempt) :
    attempt.unresolved.bind UnresolvedAttempt.seeded =
      if attempt.status.isSettled then none else some ⟨attempt.key, attempt.status, none⟩ := by
  unfold Attempt.unresolved
  cases hstatus : attempt.status <;> rfl

theorem seeds_unresolved (recovered : Recovered) :
    recovered.carried.2.filterMap UnresolvedAttempt.seeded =
      (recovered.attempts.filter fun attempt => !attempt.status.isSettled).map
        fun attempt => ⟨attempt.key, attempt.status, none⟩ := by
  rw [Recovered.carried_unresolved, List.filterMap_filterMap]
  simp only [seeded_unresolved]
  induction recovered.attempts with
  | nil => rfl
  | cons attempt rest ih =>
    cases hsettled : attempt.status.isSettled <;> simp [hsettled, ih]

theorem mem_seeds_settled {attempt : Attempt} :
    attempt ∈ recovered.carried.1.filterMap SettledAttempt.seeded ↔
      latestSettled recovered.attempts attempt.key.action = some attempt := by
  rw [List.mem_filterMap]
  constructor
  · rintro ⟨record, hrecord, hseeded⟩
    obtain ⟨latest, hlatest, rfl⟩ := (Recovered.mem_carried_settled _ record).mp hrecord
    rw [Recovered.seeded_settledRecord] at hseeded
    cases hseeded
    exact hlatest
  · intro hlatest
    refine ⟨recovered.settledRecord attempt, ?_, Recovered.seeded_settledRecord _ _⟩
    exact (Recovered.mem_carried_settled _ _).mpr ⟨attempt, hlatest, rfl⟩

theorem keys_seeds_settled (recovered : Recovered) :
    (recovered.carried.1.filterMap SettledAttempt.seeded).map Attempt.key =
      recovered.carried.1.map SettledAttempt.key := by
  rw [List.map_filterMap]
  have hall : ∀ record ∈ recovered.carried.1,
      record.seeded.map Attempt.key = some record.key := by
    intro record hrecord
    obtain ⟨latest, -, rfl⟩ := (Recovered.mem_carried_settled _ record).mp hrecord
    rw [Recovered.seeded_settledRecord]
    rfl
  rw [List.filterMap_congr hall]
  exact congrFun List.filterMap_eq_map' _

theorem Seals.seeds_eq (h : Seals wire handle checkpoint payload) :
    checkpoint.seeds =
      handle.journal.recover.carried.1.filterMap SettledAttempt.seeded ++
        handle.journal.recover.carried.2.filterMap UnresolvedAttempt.seeded := by
  rw [h.carries]
  rfl

theorem Seals.keys_filter_seeds (h : Seals wire handle checkpoint payload)
    {P : AttemptStatus → Bool} (hP : ∀ status, P status = true → status.isSettled = false) :
    (checkpoint.seeds.filter fun attempt => P attempt.status).map Attempt.key =
      (handle.journal.recover.attempts.filter fun attempt => P attempt.status).map
        Attempt.key := by
  rw [h.seeds_eq, List.filter_append, seeds_unresolved]
  have hsettled : (handle.journal.recover.carried.1.filterMap SettledAttempt.seeded).filter
      (fun attempt => P attempt.status) = [] := by
    apply List.filter_eq_nil_iff.mpr
    intro attempt hmem hstatus
    have hlatest := latestSettled_mem (mem_seeds_settled.mp hmem)
    rw [hP _ hstatus] at hlatest
    cases hlatest.2.1
  rw [hsettled, List.nil_append]
  induction handle.journal.recover.attempts with
  | nil => rfl
  | cons attempt rest ih =>
    cases hstatus : P attempt.status with
    | true => simp [hP _ hstatus, hstatus, ih]
    | false =>
      cases hunsettled : attempt.status.isSettled <;> simp [hunsettled, hstatus, ih]

theorem Seals.nodup_seeds (h : Seals wire handle checkpoint payload)
    (hnodup : (handle.journal.recover.attempts.map Attempt.key).Nodup) :
    (checkpoint.seeds.map Attempt.key).Nodup := by
  rw [h.seeds_eq, List.map_append, List.nodup_append']
  refine ⟨?_, ?_, ?_⟩
  · rw [keys_seeds_settled]
    apply @List.Nodup.of_map _ _ EffectKey.action
    rw [List.map_map]
    exact Recovered.nodup_carried_actions _
  · rw [seeds_unresolved, List.map_map]
    exact hnodup.sublist (List.filter_sublist.map _)
  · intro key hsettled hunresolved
    obtain ⟨attempt, hattempt, rfl⟩ := List.mem_map.mp hsettled
    have hlatest := latestSettled_mem (mem_seeds_settled.mp hattempt)
    rw [seeds_unresolved, List.map_map] at hunresolved
    obtain ⟨other, hother, hkey⟩ := List.mem_map.mp hunresolved
    obtain ⟨hmem, hunsettled⟩ := List.mem_filter.mp hother
    have hsame : other = attempt := List.inj_on_of_nodup_map hnodup hmem hlatest.1 hkey
    rw [hsame, hlatest.2.1] at hunsettled
    cases hunsettled

end Seeds

section Run

def Distinct (journal : FileJournal) : Prop :=
  ((seedsOf journal.checkpoint).map Attempt.key).Nodup

theorem nodup_recover {journal : FileJournal} (h : Distinct journal) :
    (journal.recover.attempts.map Attempt.key).Nodup :=
  nodup_keys_recoverContinued h journal.events

theorem Distinct.step (lawful : wire.Lawful) (hchained : Chained wire handle)
    (h : Distinct handle.journal) {link : Link} (hstep : ChainStep wire handle link next) :
    Distinct next.journal := by
  cases hstep with
  | append happend =>
    obtain ⟨-, payload, -, -, rfl⟩ := compareAndAppend_ok.mp happend
    exact h
  | continued hcontinue =>
    obtain ⟨checkpoint, payload, hseals, hcheckpoint, -, -, -⟩ :=
      chained_of_continue lawful hcontinue
    unfold Distinct
    rw [hcheckpoint]
    exact hseals.nodup_seeds (nodup_recover h)
  | reopened hopen =>
    obtain ⟨-, hcheckpoint⟩ := hchained.tracked.reopened hopen
    unfold Distinct
    rw [hcheckpoint]
    exact h

theorem distinct_of_run {disk after : Disk} {path : JournalPath} {journal : FileJournal}
    {trace : List (Handle × Link)} {final : Handle} (lawful : wire.Lawful)
    (hopen : openImpl wire disk path kind = (.ok journal, after))
    (hbase : journal.checkpoint = none)
    (run : Run (ChainStep wire) ⟨after, journal⟩ trace final) : Distinct final.journal := by
  have hstart : Distinct journal := by
    unfold Distinct
    rw [hbase]
    exact List.nodup_nil
  have hboth := @Run.always _ _ _ _ _ _
    (fun handle => Chained wire handle ∧ Distinct handle.journal) run
    ⟨chained_of_open hopen hbase, hstart⟩
  apply (hboth _).2
  intro handle link next hhandle hstep
  exact ⟨hhandle.1.kept lawful hstep, hhandle.2.step lawful hhandle.1 hstep⟩

variable {opened : FileJournal} {checkpoint : Continuation} {payload : Bytes}

theorem recover_opened (hcheckpoint : opened.checkpoint = some checkpoint) (hevents : opened.events = []) :
    opened.recover.attempts = checkpoint.seeds := by
  unfold FileJournal.recover
  rw [hcheckpoint, hevents, attempts_recoverContinued_nil]
  rfl

/-- A settled attempt is reported on by the successor exactly when its action listed it
last. -/
theorem status_opened_iff (hseals : Seals wire handle checkpoint payload)
    (hdistinct : Distinct handle.journal) (hcheckpoint : opened.checkpoint = some checkpoint)
    (hevents : opened.events = []) {attempt : Attempt}
    (hmem : attempt ∈ handle.journal.recover.attempts)
    (hsettled : attempt.status.isSettled = true) :
    (opened.recover.status attempt.key = some attempt.status ∧
        opened.recover.verification attempt.key = attempt.verification) ↔
      latestSettled handle.journal.recover.attempts attempt.key.action = some attempt := by
  have hattempts := recover_opened hcheckpoint hevents
  have hconsistent : opened.recover.Consistent := consistent_recoverContinued _ _
  have hnodup : (opened.recover.attempts.map Attempt.key).Nodup := by
    rw [hattempts]
    exact hseals.nodup_seeds (nodup_recover hdistinct)
  have hsame : ∀ other ∈ handle.journal.recover.attempts, other.key = attempt.key →
      other = attempt := by
    intro other hother hkey
    exact List.inj_on_of_nodup_map (nodup_recover hdistinct) hother hmem hkey
  constructor
  · rintro ⟨hstatus, -⟩
    by_cases hreported : attempt.key ∈ opened.recover.attempts.map Attempt.key
    · obtain ⟨seeded, hseeded, hkey⟩ := List.mem_map.mp hreported
      rw [← hkey, hconsistent.status_of_mem hnodup hseeded] at hstatus
      rw [hattempts, hseals.seeds_eq, List.mem_append, mem_seeds_settled] at hseeded
      rcases hseeded with hlatest | hunresolved
      · have hlatestMem := (latestSettled_mem hlatest).1
        rw [hsame seeded hlatestMem hkey] at hlatest
        exact hlatest
      · rw [seeds_unresolved] at hunresolved
        obtain ⟨other, hother, rfl⟩ := List.mem_map.mp hunresolved
        obtain ⟨hotherMem, hunsettled⟩ := List.mem_filter.mp hother
        rw [hsame other hotherMem hkey, hsettled] at hunsettled
        cases hunsettled
    · rw [hconsistent.status_eq_none hreported] at hstatus
      cases hstatus
  · intro hlatest
    have hseeded : attempt ∈ opened.recover.attempts := by
      rw [hattempts, hseals.seeds_eq]
      exact List.mem_append_left _ (mem_seeds_settled.mpr hlatest)
    exact ⟨hconsistent.status_of_mem hnodup hseeded,
      hconsistent.verification_of_mem hnodup hseeded⟩

/-- A continuation anywhere in a chain of generations hands over every unresolved attempt,
and the settled attempt each action admitted last exactly when its report lists that one
last. -/
theorem carries_iff {disk after : Disk} {path : JournalPath} {journal : FileJournal}
    {trace : List (Handle × Link)} {closed : Handle} (lawful : wire.Lawful)
    (hopen : openImpl wire disk path kind = (.ok journal, after))
    (hbase : journal.checkpoint = none)
    (run : Run (ChainStep wire) ⟨after, journal⟩ trace handle)
    (hcontinue : handle.continueAsFile wire = (.ok (some opened), closed)) :
    Carries (admissions journal trace) handle.journal.recover opened.recover ↔
      ListsLastAdmitted (admissions journal trace) handle.journal.recover.attempts := by
  have hdistinct := distinct_of_run lawful hopen hbase run
  obtain ⟨checkpoint, payload, hseals, hcheckpoint, -, hevents, -⟩ :=
    chained_of_continue lawful hcontinue
  constructor
  · intro h action attempt hlast
    obtain ⟨hmem, hsettled, rfl⟩ := lastAdmitted_mem hlast
    exact (status_opened_iff hseals hdistinct hcheckpoint hevents hmem hsettled).mp
      (h.settled _ attempt hlast)
  · intro h
    have hattempts := recover_opened hcheckpoint hevents
    refine ⟨?_, ?_, ?_⟩
    · unfold Recovered.uncertain
      rw [hattempts]
      apply hseals.keys_filter_seeds
      intro status hstatus
      cases status <;> first | rfl | cases hstatus
    · unfold Recovered.prepared
      rw [hattempts]
      apply @Seals.keys_filter_seeds _ _ _ _ hseals (fun status => status = .prepared)
      intro status hstatus
      rw [decide_eq_true_eq.mp hstatus]
      rfl
    · intro action attempt hlast
      obtain ⟨hmem, hsettled, rfl⟩ := lastAdmitted_mem hlast
      exact (status_opened_iff hseals hdistinct hcheckpoint hevents hmem hsettled).mpr
        (h _ attempt hlast)

end Run

namespace PlainWire

theorem newer_carried :
    ∃ closed, newerHandle.continueAsFile plain =
        (.ok (some (continuedHandle newerHandle).journal), closed) ∧
      Carries (admissions newerHandle.journal []) newerHandle.journal.recover
        (continuedHandle newerHandle).journal.recover := by
  obtain ⟨closed, hcontinue⟩ := continue_newer.opened
  refine ⟨closed, hcontinue, (carries_iff lawful_plain open_newer rfl .refl hcontinue).mpr ?_⟩
  have hsettled : ∀ attempt ∈ newerHandle.journal.recover.attempts,
      attempt.status.isSettled = true →
        latestSettled newerHandle.journal.recover.attempts attempt.key.action = some attempt := by
    decide +kernel
  intro action attempt hlast
  obtain ⟨hmem, hattempt, rfl⟩ := lastAdmitted_mem hlast
  exact hsettled attempt hmem hattempt

/-- The newer attempt's outcome is gone once the older attempt has settled behind it. -/
theorem newer_outcome_dropped :
    ∃ journal after trace final opened closed,
      openImpl plain newerDisk base (.continuing .declared) = (.ok journal, after) ∧
        journal.checkpoint = none ∧ Run (ChainStep plain) ⟨after, journal⟩ trace final ∧
        final.continueAsFile plain = (.ok (some opened), closed) ∧
        ¬ Carries (admissions journal trace) final.journal.recover opened.recover := by
  obtain ⟨closed, hcontinue⟩ := continue_olderSettled.opened
  refine ⟨_, _, _, _, _, closed, open_newer, rfl, run_olderSettled, hcontinue, ?_⟩
  intro h
  have hkept := h.settled 1 ⟨subject 1 2, .applied, none⟩ (by decide +kernel)
  exact absurd hkept.1 (by decide +kernel)

end PlainWire

end LogicalWorks.Journal
