import LogicalWorks.Proposal.Codec
import LogicalWorks.Lib.Table

/-! Repeated unchanged failures: how often one is repaired, and what the run is told instead.
Counts of occurrences and of what was spent stop at the largest number of their width. -/
namespace LogicalWorks.Proposal
open LogicalWorks.Task (utf8)

def repeatMax : Nat := 2 ^ 32 - 1

def spentMax : Nat := 2 ^ 64 - 1

/-- How many repetitions of one failure are tolerated, and how many distinct ones are recorded. -/
structure LedgerLimits where
  repeats : Nat
  distinct : Nat
  fits : repeats ≤ repeatMax

/-- What a run reached instead of repairing again. -/
inductive Intervention where
  | noProgress (fingerprint : Text) (repetitions : Nat)
  | ledgerFull (held : Nat)
  deriving DecidableEq, Repr

inductive Recorded where
  | admitted (plan : Plan) (provenance : Provenance)
  | intervention (intervention : Intervention)

def Recorded.isAdmitted : Recorded → Bool
  | .admitted _ _ => true
  | .intervention _ => false

def Plan.forRepair (fingerprint : Text) (provenance : Provenance) : Plan :=
  ⟨[], [utf8 "retry: " ++ fingerprint], .part 0 1, provenance⟩

structure Tracked where
  repetitions : Nat
  provenance : Provenance
  progress : Bool

structure RepairLedger where
  limits : LedgerLimits
  provenance : Provenance
  tracked : Table Text Tracked
  spent : Nat
  evidence : Nat

namespace RepairLedger

def new (limits : LedgerLimits) (provenance : Provenance) : RepairLedger :=
  ⟨limits, provenance, .empty, 0, 0⟩

def repetitions (ledger : RepairLedger) (fingerprint : Text) : Nat :=
  match ledger.tracked.get fingerprint with
  | some tracked => tracked.repetitions
  | none => 0

def admission (ledger : RepairLedger) (fingerprint : Text) : Recorded :=
  .admitted (.forRepair fingerprint ledger.provenance) ledger.provenance

def recordFailure (ledger : RepairLedger) (fingerprint : Text) : Recorded × RepairLedger :=
  let spent := min (ledger.spent + 1) spentMax
  match ledger.tracked.get fingerprint with
  | some tracked =>
    let repetitions := min (tracked.repetitions + 1) repeatMax
    (if ledger.limits.repeats < repetitions then
        .intervention (.noProgress fingerprint repetitions)
      else ledger.admission fingerprint,
      { ledger with spent, tracked := ledger.tracked.insert fingerprint { tracked with repetitions } })
  | none =>
    if ledger.limits.distinct ≤ ledger.tracked.size then
      (.intervention (.ledgerFull ledger.tracked.size), { ledger with spent })
    else
      let first : Tracked := ⟨1, ledger.provenance, false⟩
      (ledger.admission fingerprint,
        { ledger with spent, tracked := ledger.tracked.insert fingerprint first })

def recordEvidence (ledger : RepairLedger) (fingerprint : Text) : Bool × RepairLedger :=
  match ledger.tracked.get fingerprint with
  | none => (false, ledger)
  | some tracked =>
    (true, { ledger with
      evidence := min (ledger.evidence + 1) spentMax
      tracked := ledger.tracked.insert fingerprint { tracked with progress := true } })

def mayRepair (ledger : RepairLedger) (fingerprint : Text) : Bool :=
  decide (ledger.repetitions fingerprint ≤ ledger.limits.repeats) &&
    ((ledger.tracked.get fingerprint).isSome ||
      decide (ledger.tracked.size < ledger.limits.distinct))

end RepairLedger

inductive LedgerCall where
  | failure (fingerprint : Text)
  | evidence (fingerprint : Text)
  deriving DecidableEq, Repr

def RepairLedger.step (ledger : RepairLedger) : LedgerCall → RepairLedger
  | .failure fingerprint => (ledger.recordFailure fingerprint).2
  | .evidence fingerprint => (ledger.recordEvidence fingerprint).2

def RepairLedger.run (ledger : RepairLedger) (calls : List LedgerCall) : RepairLedger :=
  calls.foldl step ledger

def occurrences (calls : List LedgerCall) (fingerprint : Text) : Nat :=
  calls.count (.failure fingerprint)

section Recording

variable {ledger : RepairLedger} {fingerprint : Text}

theorem recordFailure_held {held : Tracked} (h : ledger.tracked.get fingerprint = some held) :
    ledger.recordFailure fingerprint =
      (if ledger.limits.repeats < min (held.repetitions + 1) repeatMax then
        .intervention (.noProgress fingerprint (min (held.repetitions + 1) repeatMax))
      else ledger.admission fingerprint,
      { ledger with
        spent := min (ledger.spent + 1) spentMax
        tracked := ledger.tracked.insert fingerprint
          { held with repetitions := min (held.repetitions + 1) repeatMax } }) := by
  unfold RepairLedger.recordFailure
  rw [h]

theorem recordFailure_full (h : ledger.tracked.get fingerprint = none)
    (hfull : ledger.limits.distinct ≤ ledger.tracked.size) :
    ledger.recordFailure fingerprint =
      (.intervention (.ledgerFull ledger.tracked.size),
        { ledger with spent := min (ledger.spent + 1) spentMax }) := by
  unfold RepairLedger.recordFailure
  rw [h]
  exact if_pos hfull

theorem recordFailure_first (h : ledger.tracked.get fingerprint = none)
    (hroom : ¬ ledger.limits.distinct ≤ ledger.tracked.size) :
    ledger.recordFailure fingerprint =
      (ledger.admission fingerprint,
        { ledger with
          spent := min (ledger.spent + 1) spentMax
          tracked := ledger.tracked.insert fingerprint ⟨1, ledger.provenance, false⟩ }) := by
  unfold RepairLedger.recordFailure
  rw [h]
  exact if_neg hroom

theorem recordEvidence_held {held : Tracked} (h : ledger.tracked.get fingerprint = some held) :
    ledger.recordEvidence fingerprint =
      (true, { ledger with
        evidence := min (ledger.evidence + 1) spentMax
        tracked := ledger.tracked.insert fingerprint { held with progress := true } }) := by
  unfold RepairLedger.recordEvidence
  rw [h]

theorem recordEvidence_untracked (h : ledger.tracked.get fingerprint = none) :
    ledger.recordEvidence fingerprint = (false, ledger) := by
  unfold RepairLedger.recordEvidence
  rw [h]

end Recording

section Counting

structure Tallies (limits : LedgerLimits) (calls : List LedgerCall) (ledger : RepairLedger) :
    Prop where
  same : ledger.limits = limits
  tracked : ∀ fingerprint held, ledger.tracked.get fingerprint = some held →
    held.repetitions = min (occurrences calls fingerprint) repeatMax ∧
      0 < occurrences calls fingerprint
  refused : ∀ fingerprint, ledger.tracked.get fingerprint = none →
    0 < occurrences calls fingerprint → limits.distinct ≤ ledger.tracked.size

theorem occurrences_failure (calls : List LedgerCall) (fingerprint other : Text) :
    occurrences (calls ++ [.failure fingerprint]) other =
      occurrences calls other + if other = fingerprint then 1 else 0 := by
  rw [occurrences, List.count_append, List.count_singleton]
  by_cases hsame : other = fingerprint
  · rw [if_pos hsame, if_pos (by rw [hsame]; exact beq_self_eq_true _)]
    rfl
  · rw [if_neg hsame, if_neg fun h => hsame (LedgerCall.failure.inj (eq_of_beq h)).symm]
    rfl

theorem occurrences_evidence (calls : List LedgerCall) (fingerprint other : Text) :
    occurrences (calls ++ [.evidence fingerprint]) other = occurrences calls other := by
  rw [occurrences, List.count_append, List.count_singleton, if_neg fun h => LedgerCall.noConfusion (eq_of_beq h)]
  rfl

variable {limits : LedgerLimits} {calls : List LedgerCall} {ledger : RepairLedger}

theorem Tallies.failure (h : Tallies limits calls ledger) (fingerprint : Text) :
    Tallies limits (calls ++ [.failure fingerprint]) (ledger.recordFailure fingerprint).2 := by
  cases hheld : ledger.tracked.get fingerprint with
  | some held =>
    rw [recordFailure_held hheld]
    obtain ⟨hcount, hpos⟩ := h.tracked fingerprint held hheld
    refine ⟨h.same, fun other tracked htracked => ?_, fun other hother hrecorded => ?_⟩
    · rw [occurrences_failure]
      rw [Table.get_insert] at htracked
      by_cases hsame : other = fingerprint
      · rw [if_pos hsame] at htracked
        cases htracked
        rw [if_pos hsame, hsame]
        refine ⟨?_, Nat.succ_pos _⟩
        show min (held.repetitions + 1) repeatMax = _
        rw [hcount]
        omega
      · rw [if_neg hsame] at htracked
        rw [if_neg hsame]
        exact h.tracked other tracked htracked
    · rw [Table.get_insert] at hother
      by_cases hsame : other = fingerprint
      · rw [if_pos hsame] at hother
        cases hother
      · rw [if_neg hsame] at hother
        rw [occurrences_failure, if_neg hsame] at hrecorded
        rw [Table.size_insert, if_pos (by rw [hheld]; rfl)]
        exact h.refused other hother hrecorded
  | none =>
    by_cases hfull : ledger.limits.distinct ≤ ledger.tracked.size
    · rw [recordFailure_full hheld hfull]
      rw [h.same] at hfull
      refine ⟨h.same, fun other tracked htracked => ?_, fun _ _ _ => hfull⟩
      have hother : other ≠ fingerprint := by
        rintro rfl
        exact nomatch hheld.symm.trans htracked
      rw [occurrences_failure, if_neg hother]
      exact h.tracked other tracked htracked
    · rw [recordFailure_first hheld hfull]
      have hfirst : occurrences calls fingerprint = 0 := by
        refine Nat.eq_zero_of_not_pos fun hpos => hfull ?_
        rw [h.same]
        exact h.refused fingerprint hheld hpos
      refine ⟨h.same, fun other tracked htracked => ?_, fun other hother hrecorded => ?_⟩
      · rw [occurrences_failure]
        rw [Table.get_insert] at htracked
        by_cases hsame : other = fingerprint
        · rw [if_pos hsame] at htracked
          cases htracked
          rw [if_pos hsame, hsame, hfirst]
          exact ⟨rfl, Nat.succ_pos _⟩
        · rw [if_neg hsame] at htracked
          rw [if_neg hsame]
          exact h.tracked other tracked htracked
      · rw [Table.get_insert] at hother
        by_cases hsame : other = fingerprint
        · rw [if_pos hsame] at hother
          cases hother
        · rw [if_neg hsame] at hother
          rw [occurrences_failure, if_neg hsame] at hrecorded
          have hle := h.refused other hother hrecorded
          rw [h.same] at hfull
          exact absurd hle hfull

theorem Tallies.evidence (h : Tallies limits calls ledger) (fingerprint : Text) :
    Tallies limits (calls ++ [.evidence fingerprint]) (ledger.recordEvidence fingerprint).2 := by
  cases hheld : ledger.tracked.get fingerprint with
  | none =>
    rw [recordEvidence_untracked hheld]
    refine ⟨h.same, fun other => ?_, fun other => ?_⟩
    · rw [occurrences_evidence]
      exact h.tracked other
    · rw [occurrences_evidence]
      exact h.refused other
  | some held =>
    rw [recordEvidence_held hheld]
    refine ⟨h.same, fun other tracked htracked => ?_, fun other hother hrecorded => ?_⟩
    · rw [occurrences_evidence]
      rw [Table.get_insert] at htracked
      by_cases hsame : other = fingerprint
      · rw [if_pos hsame] at htracked
        cases htracked
        rw [hsame]
        exact h.tracked fingerprint held hheld
      · rw [if_neg hsame] at htracked
        exact h.tracked other tracked htracked
    · rw [Table.get_insert] at hother
      by_cases hsame : other = fingerprint
      · rw [if_pos hsame] at hother
        cases hother
      · rw [if_neg hsame] at hother
        rw [occurrences_evidence] at hrecorded
        rw [Table.size_insert, if_pos (by rw [hheld]; rfl)]
        exact h.refused other hother hrecorded

theorem tallies_run (limits : LedgerLimits) (provenance : Provenance) (calls : List LedgerCall) :
    Tallies limits calls ((RepairLedger.new limits provenance).run calls) := by
  induction calls using List.reverseRecOn with
  | nil =>
    refine ⟨rfl, fun fingerprint held hheld => ?_, fun fingerprint _ hpos => ?_⟩
    · cases hheld
    · exact absurd hpos (Nat.lt_irrefl 0)
  | append_singleton calls call ih =>
    rw [RepairLedger.run, List.foldl_append]
    cases call with
    | failure fingerprint => exact ih.failure fingerprint
    | evidence fingerprint => exact ih.evidence fingerprint

end Counting

section Evidence

/-- Two ledgers that differ in what is known of progress alone. -/
structure Alike (ledger other : RepairLedger) : Prop where
  limits : ledger.limits = other.limits
  provenance : ledger.provenance = other.provenance
  size : ledger.tracked.size = other.tracked.size
  spent : ledger.spent = other.spent
  counts : ∀ fingerprint, (ledger.tracked.get fingerprint).map Tracked.repetitions =
    (other.tracked.get fingerprint).map Tracked.repetitions

variable {ledger other : RepairLedger}

theorem alike_evidence (ledger : RepairLedger) (fingerprint : Text) :
    Alike (ledger.recordEvidence fingerprint).2 ledger := by
  cases hheld : ledger.tracked.get fingerprint with
  | none =>
    rw [recordEvidence_untracked hheld]
    exact ⟨rfl, rfl, rfl, rfl, fun _ => rfl⟩
  | some held =>
    rw [recordEvidence_held hheld]
    refine ⟨rfl, rfl, ?_, rfl, fun asked => ?_⟩
    · rw [Table.size_insert, if_pos (by rw [hheld]; rfl)]
    · rw [Table.get_insert]
      by_cases hsame : asked = fingerprint
      · rw [if_pos hsame, hsame, hheld]
        rfl
      · rw [if_neg hsame]

theorem Alike.isSome (h : Alike ledger other) (fingerprint : Text) :
    (ledger.tracked.get fingerprint).isSome = (other.tracked.get fingerprint).isSome := by
  have hcounts := congrArg Option.isSome (h.counts fingerprint)
  rwa [Option.isSome_map, Option.isSome_map] at hcounts

theorem Alike.insert (h : Alike ledger other) (fingerprint : Text) {held held' : Tracked}
    (hheld : held.repetitions = held'.repetitions) (asked : Text) :
    ((ledger.tracked.insert fingerprint held).get asked).map Tracked.repetitions =
      ((other.tracked.insert fingerprint held').get asked).map Tracked.repetitions := by
  rw [Table.get_insert, Table.get_insert]
  by_cases hsame : asked = fingerprint
  · rw [if_pos hsame, if_pos hsame]
    exact congrArg some hheld
  · rw [if_neg hsame, if_neg hsame]
    exact h.counts asked

theorem Alike.size_insert (h : Alike ledger other) (fingerprint : Text) (held held' : Tracked) :
    (ledger.tracked.insert fingerprint held).size =
      (other.tracked.insert fingerprint held').size := by
  rw [Table.size_insert, Table.size_insert, h.isSome, h.size]

theorem Alike.failure (h : Alike ledger other) (fingerprint : Text) :
    (ledger.recordFailure fingerprint).1 = (other.recordFailure fingerprint).1 ∧
      Alike (ledger.recordFailure fingerprint).2 (other.recordFailure fingerprint).2 := by
  have hcounts := h.counts fingerprint
  cases hheld : ledger.tracked.get fingerprint with
  | none =>
    have hheld' : other.tracked.get fingerprint = none := by
      rw [hheld] at hcounts
      exact Option.map_eq_none_iff.mp hcounts.symm
    by_cases hfull : ledger.limits.distinct ≤ ledger.tracked.size
    · have hfull' : other.limits.distinct ≤ other.tracked.size := by
        rwa [← h.limits, ← h.size]
      rw [recordFailure_full hheld hfull, recordFailure_full hheld' hfull', h.size, h.spent]
      exact ⟨rfl, h.limits, h.provenance, h.size, rfl, h.counts⟩
    · have hfull' : ¬ other.limits.distinct ≤ other.tracked.size := by
        rwa [← h.limits, ← h.size]
      rw [recordFailure_first hheld hfull, recordFailure_first hheld' hfull', h.spent,
        RepairLedger.admission, RepairLedger.admission, h.provenance]
      exact ⟨rfl, h.limits, rfl, h.size_insert fingerprint _ _, rfl, h.insert fingerprint rfl⟩
  | some held =>
    obtain ⟨held', hheld', hsame⟩ : ∃ held', other.tracked.get fingerprint = some held' ∧
        held'.repetitions = held.repetitions := by
      rw [hheld] at hcounts
      exact Option.map_eq_some_iff.mp hcounts.symm
    rw [recordFailure_held hheld, recordFailure_held hheld', h.spent, hsame,
      RepairLedger.admission, RepairLedger.admission, h.provenance, h.limits]
    exact ⟨rfl, rfl, rfl, h.size_insert fingerprint _ _, rfl, h.insert fingerprint rfl⟩

theorem Alike.step (h : Alike ledger other) (call : LedgerCall) :
    Alike (ledger.step call) (other.step call) := by
  cases call with
  | failure fingerprint => exact (h.failure fingerprint).2
  | evidence fingerprint =>
    have hleft := alike_evidence ledger fingerprint
    have hright := alike_evidence other fingerprint
    exact ⟨hleft.limits.trans (h.limits.trans hright.limits.symm),
      hleft.provenance.trans (h.provenance.trans hright.provenance.symm),
      hleft.size.trans (h.size.trans hright.size.symm),
      hleft.spent.trans (h.spent.trans hright.spent.symm),
      fun asked => (hleft.counts asked).trans ((h.counts asked).trans (hright.counts asked).symm)⟩

theorem Alike.run (h : Alike ledger other) (calls : List LedgerCall) :
    Alike (ledger.run calls) (other.run calls) := by
  induction calls generalizing ledger other with
  | nil => exact h
  | cons call calls ih => exact ih (h.step call)

theorem repetitions_eq (ledger : RepairLedger) (fingerprint : Text) :
    ledger.repetitions fingerprint =
      ((ledger.tracked.get fingerprint).map Tracked.repetitions).getD 0 := by
  unfold RepairLedger.repetitions
  cases ledger.tracked.get fingerprint <;> rfl

theorem Alike.mayRepair (h : Alike ledger other) (fingerprint : Text) :
    ledger.mayRepair fingerprint = other.mayRepair fingerprint := by
  unfold RepairLedger.mayRepair
  rw [repetitions_eq, repetitions_eq, h.counts, h.isSome, h.size, h.limits]

end Evidence

section Agreement

/-- The predicate and the record agree on a failure behind some calls: it is admitted when the
predicate holds, stopped from the occurrence behind the tolerated ones on, and judged whatever
evidence was recorded. -/
structure Agrees (limits : LedgerLimits) (provenance : Provenance) (calls : List LedgerCall)
    (fingerprint : Text) : Prop where
  predicate :
    ((RepairLedger.new limits provenance).run calls).mayRepair fingerprint = true ↔
      (((RepairLedger.new limits provenance).run calls).recordFailure
        fingerprint).1.isAdmitted = true
  noProgress :
    (∃ repetitions, (((RepairLedger.new limits provenance).run calls).recordFailure
        fingerprint).1 = .intervention (.noProgress fingerprint repetitions)) ↔
      (((RepairLedger.new limits provenance).run calls).tracked.get fingerprint).isSome = true ∧
        limits.repeats + 1 ≤ occurrences calls fingerprint + 1
  evidence : ∀ about later,
    ((((RepairLedger.new limits provenance).run calls).recordEvidence about).2.run
        later).mayRepair fingerprint =
      (((RepairLedger.new limits provenance).run calls).run later).mayRepair fingerprint ∧
    (((((RepairLedger.new limits provenance).run calls).recordEvidence about).2.run
        later).recordFailure fingerprint).1 =
      ((((RepairLedger.new limits provenance).run calls).run later).recordFailure
        fingerprint).1 ∧
    ((((RepairLedger.new limits provenance).run calls).recordEvidence about).2.run later).spent =
      (((RepairLedger.new limits provenance).run calls).run later).spent

/-- A tracked failure occurred as often as is tolerated; where that is the largest count there is,
as often or more. -/
def AtLimit (limits : LedgerLimits) (ledger : RepairLedger) (calls : List LedgerCall)
    (fingerprint : Text) : Prop :=
  (ledger.tracked.get fingerprint).isSome = true ∧
    (occurrences calls fingerprint = limits.repeats ∨
      (limits.repeats = repeatMax ∧ repeatMax ≤ occurrences calls fingerprint))

end Agreement

end LogicalWorks.Proposal
