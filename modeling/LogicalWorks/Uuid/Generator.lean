import LogicalWorks.Uuid.Order
import LogicalWorks.Lib.Run
import Mathlib.Algebra.Order.Ring.Nat

/-! What any run of calls on one generator issues. -/
namespace LogicalWorks.V7

inductive Call where
  | issueAt (nowMs : Nat) (entropy : Entropy)
  | issueClamped (nowMs : Nat) (entropy : Option Entropy)
  deriving DecidableEq

namespace Call

def nowMs : Call → Nat
  | issueAt nowMs _ => nowMs
  | issueClamped nowMs _ => nowMs

def Clamped : Call → Prop
  | issueAt _ _ => False
  | issueClamped _ _ => True

end Call

def V7Generator.call (generator : V7Generator) : Call → V7Generator × Except V7Error Uuid
  | .issueAt nowMs entropy => generator.issueAt nowMs entropy
  | .issueClamped nowMs entropy =>
    let (generator, issued) := generator.issueClamped nowMs entropy
    (generator, .ok issued)

def Calls (generator : V7Generator) (call : Call) (next : V7Generator) : Prop :=
  next = (generator.call call).1

def Spent (generator : V7Generator) : Prop := generator.last = some (maxUnixMs, counterMax)

def reading (call : Call) : Nat := min call.nowMs maxUnixMs

def borrowed (generator : V7Generator) (call : Call) : Option Nat :=
  match generator.last with
  | some (stamp, counter) =>
    if call.nowMs ≤ stamp ∧ counter = counterMax ∧ stamp < maxUnixMs then some (stamp + 1) else none
  | none => none

def marks (trace : List (V7Generator × Call)) : List Nat :=
  trace.flatMap fun taken =>
    match (taken.1.call taken.2).2 with
    | .ok _ => reading taken.2 :: (borrowed taken.1 taken.2).toList
    | .error _ => []

def place (stamp counter : Nat) : Nat := stamp * (counterMax + 1) + counter

section Layout

theorem counterSeed_le (entropy : Entropy) : counterSeed entropy ≤ counterMax := by
  have hand : counterSeed entropy ≤ counterSeedMask := Nat.and_le_right
  unfold counterMax
  unfold counterSeedMask at hand
  omega

theorem version_byte (high : UInt8) :
    (versionBits ||| (high &&& counterHeadMask)).toNat = 112 + high.toNat % 16 := by
  have hall : ∀ high : Fin 256, (versionBits ||| (UInt8.ofFin high &&& counterHeadMask)).toNat =
      112 + (UInt8.ofFin high).toNat % 16 := by
    decide +kernel
  exact hall high.toFin

theorem assemble_lt {stamp counter stamp' counter' : Nat} (entropy entropy' : Entropy)
    (hstamp : stamp' ≤ maxUnixMs) (hcounter : counter ≤ counterMax) (hcounter' : counter' ≤ counterMax)
    (h : place stamp counter < place stamp' counter') :
    (assemble stamp counter entropy).raw < (assemble stamp' counter' entropy').raw := by
  show bigEndian 6 stamp ++ _ < bigEndian 6 stamp' ++ _
  unfold place counterMax at *
  unfold maxUnixMs at hstamp
  rcases Nat.lt_or_ge stamp stamp' with hlt | hge
  · refine append_lt_append (bigEndian_lt ?_ hlt) ?_ _ _
    · rw [Nat.div_eq_of_lt (by omega), Nat.div_eq_of_lt (by omega)]
    · rw [length_bigEndian, length_bigEndian]
  · have heq : stamp = stamp' := by omega
    subst heq
    apply List.append_left_lt
    rw [List.cons_lt_cons_iff, List.cons_lt_cons_iff, UInt8.lt_iff_toNat_lt, UInt8.lt_iff_toNat_lt,
      version_byte, version_byte, ← UInt8.toNat_inj, version_byte, version_byte]
    simp only [UInt8.toNat_ofNat']
    omega

theorem version_assemble (stamp counter : Nat) (entropy : Entropy) :
    (assemble stamp counter entropy).version = some 7 := by
  have hvariant : ∀ head : Fin 256,
      (variantBits ||| (UInt8.ofFin head &&& randomHeadMask)) &&& 0xc0 = 0x80 := by
    decide +kernel
  have hversion : ∀ high : Fin 256,
      (versionBits ||| (UInt8.ofFin high &&& counterHeadMask)) >>> 4 = 7 := by
    decide +kernel
  exact (if_pos (hvariant entropy[2].toFin)).trans
    (congrArg some (hversion (UInt8.ofNat (counter / 256)).toFin))

theorem unixMillis_assemble {stamp : Nat} (counter : Nat) (entropy : Entropy)
    (h : stamp ≤ maxUnixMs) : (assemble stamp counter entropy).unixMillis = some stamp := by
  unfold Uuid.unixMillis
  rw [version_assemble, if_neg (not_not.mpr rfl)]
  show some (Bytes.ofBE (bigEndian 6 stamp)) = some stamp
  rw [ofBE_bigEndian (by unfold maxUnixMs at h; omega)]

end Layout

section Step

def Bounded (generator : V7Generator) : Prop :=
  ∀ stamp counter, generator.last = some (stamp, counter) →
    stamp ≤ maxUnixMs ∧ counter ≤ counterMax

/-- The stamp of an identifier that a call issues: the largest of the last one, the reading and
the millisecond borrowed. -/
def newest (generator : V7Generator) (call : Call) : Nat :=
  match generator.last with
  | some (stamp, _) => max (max stamp (reading call)) ((borrowed generator call).getD 0)
  | none => reading call

/-- A position that a call moves to: behind the last one, unless that was the last there is and
the call never refuses. -/
structure Follows (generator : V7Generator) (call : Call) (stamp counter : Nat) : Prop where
  stamp_le : stamp ≤ maxUnixMs
  counter_le : counter ≤ counterMax
  newest : stamp = newest generator call
  later (stamp' counter' : Nat) : generator.last = some (stamp', counter') →
    place stamp' counter' < place stamp counter ∨
      Spent generator ∧ call.Clamped ∧ place stamp' counter' = place stamp counter

theorem nextPosition_follows {generator : V7Generator} {call : Call} {seed stamp counter : Nat}
    (hbounded : Bounded generator) (hseed : seed ≤ counterMax)
    (h : generator.nextPosition call.nowMs seed = .ok (stamp, counter)) :
    Follows generator call stamp counter := by
  unfold V7Generator.nextPosition at h
  cases hlast : generator.last with
  | none =>
    simp only [hlast] at h
    split at h
    · cases h
    next hfits =>
      cases h
      refine ⟨by omega, hseed, ?_, fun stamp' counter' h' => ?_⟩
      · unfold V7.newest reading
        rw [hlast]
        exact (min_eq_left (by omega)).symm
      · rw [hlast] at h'
        cases h'
  | some position =>
    obtain ⟨last, spent⟩ := position
    obtain ⟨hstamp, hcounter⟩ := hbounded last spent hlast
    simp only [hlast] at h
    split at h
    next hbehind =>
      unfold step at h
      split at h
      next hroom =>
        cases h
        refine ⟨hstamp, hroom, ?_, fun stamp' counter' h' => ?_⟩
        · have hnot : ¬ (call.nowMs ≤ stamp ∧ spent = counterMax ∧ stamp < maxUnixMs) := by omega
          unfold V7.newest borrowed reading
          rw [hlast]
          simp only [if_neg hnot, Option.getD_none]
          omega
        · rw [hlast] at h'
          cases h'
          exact .inl (Nat.lt_succ_self _)
      next hfull =>
        split at h
        next hnext =>
          cases h
          refine ⟨hnext, hseed, ?_, fun stamp' counter' h' => ?_⟩
          · have hborrowed : call.nowMs ≤ last ∧ spent = counterMax ∧ last < maxUnixMs := by omega
            unfold V7.newest borrowed reading
            rw [hlast]
            simp only [if_pos hborrowed, Option.getD_some]
            omega
          · rw [hlast] at h'
            cases h'
            left
            unfold place
            unfold counterMax at *
            omega
        · cases h
    next hahead =>
      split at h
      · cases h
      next hfits =>
        cases h
        refine ⟨by omega, hseed, ?_, fun stamp' counter' h' => ?_⟩
        · have hnot : ¬ (call.nowMs ≤ last ∧ spent = counterMax ∧ last < maxUnixMs) := by omega
          unfold V7.newest borrowed reading
          rw [hlast]
          simp only [if_neg hnot, Option.getD_none]
          omega
        · rw [hlast] at h'
          cases h'
          left
          unfold place
          unfold counterMax at *
          omega

theorem nextPosition_refused {generator : V7Generator} {nowMs seed : Nat} {cause : V7Error}
    (hbounded : Bounded generator) (h : generator.nextPosition nowMs seed = .error cause) :
    maxUnixMs < nowMs ∨ Spent generator := by
  unfold V7Generator.nextPosition at h
  cases hlast : generator.last with
  | none =>
    simp only [hlast] at h
    split at h
    next hpast => exact .inl hpast
    · cases h
  | some position =>
    obtain ⟨last, spent⟩ := position
    obtain ⟨hstamp, hcounter⟩ := hbounded last spent hlast
    simp only [hlast] at h
    split at h
    · unfold step at h
      split at h
      · cases h
      next hfull =>
        split at h
        · cases h
        next hend =>
          right
          unfold Spent
          rw [hlast, show last = maxUnixMs by omega, show spent = counterMax by omega]
    · split at h
      next hpast => exact .inl hpast
      · cases h

theorem pinned_follows {generator : V7Generator} {call : Call} (hcall : call.Clamped)
    (hbounded : Bounded generator) (drawn : Entropy)
    (hrefused : maxUnixMs < call.nowMs ∨ Spent generator) :
    Follows generator call maxUnixMs (generator.pinnedCounter drawn) := by
  have hseed := counterSeed_le drawn
  cases hlast : generator.last with
  | none =>
    have hnot : ¬ Spent generator := by
      unfold Spent
      rw [hlast]
      exact fun h => by cases h
    have hpast := hrefused.resolve_right hnot
    refine ⟨Nat.le_refl _, ?_, ?_, fun stamp' counter' h' => ?_⟩
    · unfold V7Generator.pinnedCounter
      rw [hlast]
      exact hseed
    · unfold newest reading
      rw [hlast]
      exact (min_eq_right (Nat.le_of_lt hpast)).symm
    · rw [hlast] at h'
      cases h'
  | some position =>
    obtain ⟨last, spent⟩ := position
    obtain ⟨hstamp, hcounter⟩ := hbounded last spent hlast
    refine ⟨Nat.le_refl _, ?_, ?_, fun stamp' counter' h' => ?_⟩
    · unfold V7Generator.pinnedCounter
      simp only [hlast]
      split
      · exact Nat.min_le_right _ _
      · exact hseed
    · have hmax : maxUnixMs < call.nowMs ∨ last = maxUnixMs := by
        refine hrefused.imp_right fun h => ?_
        unfold Spent at h
        rw [hlast] at h
        cases h
        rfl
      unfold newest borrowed reading
      rw [hlast]
      simp only
      split
      · rw [Option.getD_some]
        omega
      · rw [Option.getD_none]
        omega
    · rw [hlast] at h'
      cases h'
      by_cases hspent : Spent generator
      · refine .inr ⟨hspent, hcall, ?_⟩
        unfold Spent at hspent
        rw [hlast] at hspent
        cases hspent
        unfold V7Generator.pinnedCounter
        simp only [hlast]
        rfl
      · left
        have hcases : last ≠ maxUnixMs ∨ spent ≠ counterMax := by
          by_contra hboth
          rw [not_or, not_not, not_not] at hboth
          exact hspent (by unfold Spent; rw [hlast, hboth.1, hboth.2])
        unfold V7Generator.pinnedCounter place
        simp only [hlast]
        unfold counterMax at *
        split <;> omega

theorem call_cases {generator : V7Generator} (hbounded : Bounded generator) (call : Call) :
    (∃ cause, generator.call call = (generator, .error cause) ∧ ¬ call.Clamped) ∨
    ∃ stamp counter entropy, Follows generator call stamp counter ∧
      generator.call call = ({ last := some (stamp, counter), tail := randomTail entropy },
        .ok (assemble stamp counter entropy)) := by
  cases call with
  | issueAt nowMs entropy =>
    show (∃ cause, generator.issueAt nowMs entropy = _ ∧ _) ∨
      ∃ stamp counter entropy', _ ∧ generator.issueAt nowMs entropy = _
    unfold V7Generator.issueAt
    cases hnext : generator.nextPosition nowMs (counterSeed entropy) with
    | error cause => exact .inl ⟨cause, rfl, id⟩
    | ok position =>
      obtain ⟨stamp, counter⟩ := position
      exact .inr ⟨stamp, counter, entropy, @nextPosition_follows generator
        (.issueAt nowMs entropy) _ _ _ hbounded (counterSeed_le entropy) hnext, rfl⟩
  | issueClamped nowMs entropy =>
    right
    show ∃ stamp counter entropy', _ ∧ ((generator.issueClamped nowMs entropy).1,
      Except.ok (generator.issueClamped nowMs entropy).2) = _
    unfold V7Generator.issueClamped V7Generator.issueAt
    dsimp only
    generalize entropy.getD generator.carriedEntropy = drawn
    cases hnext : generator.nextPosition nowMs (counterSeed drawn) with
    | error cause =>
      exact ⟨maxUnixMs, generator.pinnedCounter drawn, drawn, @pinned_follows generator
        (.issueClamped nowMs entropy) trivial hbounded drawn
        (nextPosition_refused hbounded hnext), rfl⟩
    | ok position =>
      obtain ⟨stamp, counter⟩ := position
      exact ⟨stamp, counter, drawn, @nextPosition_follows generator
        (.issueClamped nowMs entropy) _ _ _ hbounded (counterSeed_le drawn) hnext, rfl⟩

end Step

section Runs

variable {trace : List (V7Generator × Call)} {generator : V7Generator}

theorem marks_append (trace : List (V7Generator × Call)) (generator : V7Generator) (call : Call) :
    marks (trace ++ [(generator, call)]) = marks trace ++ marks [(generator, call)] :=
  List.flatMap_append

theorem marks_issued {call : Call} {id : Uuid} (h : (generator.call call).2 = .ok id) :
    marks [(generator, call)] = reading call :: (borrowed generator call).toList := by
  unfold marks
  simp only [List.flatMap_cons, List.flatMap_nil, h, List.append_nil]

theorem marks_refused {call : Call} {cause : V7Error}
    (h : (generator.call call).2 = .error cause) : marks [(generator, call)] = [] := by
  unfold marks
  simp only [List.flatMap_cons, List.flatMap_nil, h, List.append_nil]

structure Behind (trace : List (V7Generator × Call)) (generator : V7Generator) : Prop where
  bounded : Bounded generator
  unused : generator.last = none → marks trace = []
  newest (stamp counter : Nat) : generator.last = some (stamp, counter) →
    stamp ∈ marks trace ∧ ∀ mark ∈ marks trace, mark ≤ stamp
  issued (taken : V7Generator × Call) (id : Uuid) : taken ∈ trace →
    (taken.1.call taken.2).2 = .ok id → ∃ stamp counter entropy stamp' counter',
      id = assemble stamp counter entropy ∧ counter ≤ counterMax ∧
      generator.last = some (stamp', counter') ∧ place stamp counter ≤ place stamp' counter'

theorem newest_largest {call : Call} {id : Uuid} (hbehind : Behind trace generator)
    (hissued : (generator.call call).2 = .ok id) :
    newest generator call ∈ marks (trace ++ [(generator, call)]) ∧
      ∀ mark ∈ marks (trace ++ [(generator, call)]), mark ≤ newest generator call := by
  rw [marks_append, marks_issued hissued]
  cases hlast : generator.last with
  | none =>
    have hnewest : newest generator call = reading call := by
      unfold newest
      rw [hlast]
    have hborrowed : borrowed generator call = none := by
      unfold borrowed
      rw [hlast]
    rw [hbehind.unused hlast, hnewest, hborrowed]
    simp
  | some position =>
    obtain ⟨stamp, counter⟩ := position
    obtain ⟨hmember, hlargest⟩ := hbehind.newest stamp counter hlast
    have hnewest : newest generator call =
        max (max stamp (reading call)) ((borrowed generator call).getD 0) := by
      unfold newest
      rw [hlast]
    rw [hnewest]
    cases hborrowed : borrowed generator call with
    | none =>
      simp only [Option.getD_none, Option.toList_none, Nat.max_zero, List.mem_append,
        List.mem_singleton]
      refine ⟨?_, ?_⟩
      · rcases Nat.le_total (reading call) stamp with hle | hle
        · rw [Nat.max_eq_left hle]
          exact .inl hmember
        · rw [Nat.max_eq_right hle]
          exact .inr rfl
      · rintro mark (hmark | rfl)
        · exact Nat.le_trans (hlargest mark hmark) (Nat.le_max_left _ _)
        · exact Nat.le_max_right _ _
    | some milli =>
      simp only [Option.getD_some, Option.toList_some, List.mem_append, List.mem_cons,
        List.not_mem_nil, or_false]
      refine ⟨?_, ?_⟩
      · rcases Nat.le_total milli (max stamp (reading call)) with hle | hle
        · rw [Nat.max_eq_left hle]
          rcases Nat.le_total (reading call) stamp with hle' | hle'
          · rw [Nat.max_eq_left hle']
            exact .inl hmember
          · rw [Nat.max_eq_right hle']
            exact .inr (.inl rfl)
        · rw [Nat.max_eq_right hle]
          exact .inr (.inr rfl)
      · rintro mark (hmark | rfl | rfl)
        · have := hlargest mark hmark
          omega
        · omega
        · omega

theorem behind_of_run (run : Run Calls .new trace generator) : Behind trace generator := by
  induction run with
  | refl =>
    refine ⟨?_, fun _ => rfl, ?_, ?_⟩
    · intro stamp counter h
      cases h
    · intro stamp counter h
      cases h
    · intro taken id hmem
      cases hmem
  | @snoc trace state next call before taken ih =>
    rcases call_cases ih.bounded call with
      ⟨cause, hcall, -⟩ | ⟨stamp, counter, entropy, hfollows, hcall⟩
    · have hrefused : (state.call call).2 = .error cause := by rw [hcall]
      have hnext : next = state := by
        rw [taken, hcall]
      have hmarks : marks (trace ++ [(state, call)]) = marks trace := by
        rw [marks_append, marks_refused hrefused, List.append_nil]
      rw [hnext]
      refine ⟨ih.bounded, fun h => hmarks.trans (ih.unused h), ?_, ?_⟩
      · intro stamp counter h
        rw [hmarks]
        exact ih.newest stamp counter h
      · intro earlier id hmem hissued
        rcases List.mem_append.mp hmem with hmem | hmem
        · exact ih.issued earlier id hmem hissued
        · rw [List.mem_singleton.mp hmem, hrefused] at hissued
          cases hissued
    · have hissued : (state.call call).2 = .ok (assemble stamp counter entropy) := by rw [hcall]
      have hlast : next.last = some (stamp, counter) := by
        rw [taken, hcall]
      refine ⟨?_, ?_, ?_, ?_⟩
      · intro stamp' counter' h
        rw [hlast] at h
        cases h
        exact ⟨hfollows.stamp_le, hfollows.counter_le⟩
      · intro h
        rw [hlast] at h
        cases h
      · intro stamp' counter' h
        rw [hlast] at h
        cases h
        rw [hfollows.newest]
        exact newest_largest ih hissued
      · intro earlier id hmem hearlier
        rcases List.mem_append.mp hmem with hmem | hmem
        · obtain ⟨s, c, e, s', c', hid, hc, hstate, hplace⟩ := ih.issued earlier id hmem hearlier
          refine ⟨s, c, e, stamp, counter, hid, hc, hlast, ?_⟩
          rcases hfollows.later s' c' hstate with hlater | ⟨-, -, hsame⟩
          · exact Nat.le_trans hplace (Nat.le_of_lt hlater)
          · exact Nat.le_trans hplace (Nat.le_of_eq hsame)
        · rw [List.mem_singleton.mp hmem, hissued] at hearlier
          cases hearlier
          exact ⟨stamp, counter, entropy, stamp, counter, rfl, hfollows.counter_le, hlast,
            Nat.le_refl _⟩

theorem issued_later {call : Call} {id earlier : Uuid} {taken : V7Generator × Call}
    (run : Run Calls .new trace generator) (hissued : (generator.call call).2 = .ok id)
    (hspent : ¬ (Spent generator ∧ call.Clamped)) (hmem : taken ∈ trace)
    (hearlier : (taken.1.call taken.2).2 = .ok earlier) : earlier.raw < id.raw := by
  have hbehind := behind_of_run run
  obtain ⟨s, c, e, s', c', rfl, hc, hlast, hplace⟩ := hbehind.issued taken earlier hmem hearlier
  rcases call_cases hbehind.bounded call with
    ⟨cause, hcall, -⟩ | ⟨stamp, counter, entropy, hfollows, hcall⟩
  · rw [hcall] at hissued
    cases hissued
  · rw [hcall] at hissued
    cases hissued
    rcases hfollows.later s' c' hlast with hlater | ⟨hend, hclamped, -⟩
    · have hplaces : place s c < place stamp counter := Nat.lt_of_le_of_lt hplace hlater
      exact assemble_lt e entropy hfollows.stamp_le hc hfollows.counter_le hplaces
    · exact absurd ⟨hend, hclamped⟩ hspent

theorem issued_stamp {call : Call} {id : Uuid} (run : Run Calls .new trace generator)
    (hissued : (generator.call call).2 = .ok id) :
    id.version = some 7 ∧ ∃ stamp, id.unixMillis = some stamp ∧ reading call ≤ stamp ∧
      stamp ∈ marks (trace ++ [(generator, call)]) ∧
      ∀ mark ∈ marks (trace ++ [(generator, call)]), mark ≤ stamp := by
  have hbehind := behind_of_run run
  obtain ⟨hmember, hlargest⟩ := newest_largest hbehind hissued
  have hreading : reading call ∈ marks (trace ++ [(generator, call)]) := by
    rw [marks_append, marks_issued hissued]
    exact List.mem_append_right _ List.mem_cons_self
  rcases call_cases hbehind.bounded call with
    ⟨cause, hcall, -⟩ | ⟨stamp, counter, entropy, hfollows, hcall⟩
  · rw [hcall] at hissued
    cases hissued
  · rw [hcall] at hissued
    cases hissued
    rw [← hfollows.newest] at hmember hlargest
    exact ⟨version_assemble stamp counter entropy, stamp,
      unixMillis_assemble counter entropy hfollows.stamp_le, hlargest _ hreading, hmember, hlargest⟩

end Runs

theorem issueAt_refused {generator : V7Generator} {nowMs : Nat} {entropy : Entropy}
    {cause : V7Error} (h : (generator.issueAt nowMs entropy).2 = .error cause) :
    (generator.issueAt nowMs entropy).1 = generator := by
  unfold V7Generator.issueAt at *
  cases hnext : generator.nextPosition nowMs (counterSeed entropy) with
  | error cause => rfl
  | ok position =>
    rw [hnext] at h
    cases h

/-- In every run of calls each identifier is behind the earlier ones, as bytes, text and key, with
a stamp that is the largest reading or borrowed millisecond so far; a refusal changes nothing; and
text and keys are read back. -/
theorem v7_ordered :
    (∀ trace generator call id, Run Calls .new trace generator →
      (generator.call call).2 = .ok id → ¬ (Spent generator ∧ call.Clamped) →
      ∀ taken ∈ trace, ∀ earlier, (taken.1.call taken.2).2 = .ok earlier →
        earlier.raw < id.raw ∧ earlier.display < id.display ∧
          ∀ key, earlier.packTuple key < id.packTuple key) ∧
    (∀ (generator : V7Generator) nowMs entropy cause,
      (generator.issueAt nowMs entropy).2 = .error cause →
        (generator.issueAt nowMs entropy).1 = generator) ∧
    (∀ trace generator call id, Run Calls .new trace generator →
      (generator.call call).2 = .ok id →
      id.version = some 7 ∧ ∃ stamp, id.unixMillis = some stamp ∧ reading call ≤ stamp ∧
        stamp ∈ marks (trace ++ [(generator, call)]) ∧
        ∀ mark ∈ marks (trace ++ [(generator, call)]), mark ≤ stamp) ∧
    (∀ id rest, Uuid.unpackTuple (id.packTuple [] ++ rest) = .ok (id, rest)) ∧
    ∀ id : Uuid, Uuid.parse id.display = .ok id := by
  refine ⟨?_, fun _ _ _ _ => issueAt_refused, fun _ _ _ _ => issued_stamp,
    Uuid.unpackTuple_packTuple, Uuid.parse_display⟩
  intro trace generator call id run hissued hspent taken hmem earlier hearlier
  have hlater := issued_later run hissued hspent hmem hearlier
  exact ⟨hlater, Uuid.display_lt hlater, Uuid.packTuple_lt hlater⟩

def drawn : Entropy := #v[1, 2, 3, 4, 5, 6, 7, 8, 9, 10]

/-- Two readings of one millisecond, and the stamp of the second identifier. -/
theorem v7_ordered_twice :
    (assemble 5 258 drawn).raw < (assemble 5 259 drawn).raw ∧
    (assemble 5 259 drawn).version = some 7 := by
  have hrun : Run Calls .new [(V7Generator.new, .issueAt 5 drawn)]
      ((V7Generator.new.call (.issueAt 5 drawn)).1) := Run.snoc .refl rfl
  obtain ⟨horder, -, hstamp, -⟩ := v7_ordered
  refine ⟨(horder _ _ (.issueAt 5 drawn) _ hrun rfl (fun h => h.2) _ List.mem_cons_self _ rfl).1,
    (hstamp _ _ (.issueAt 5 drawn) _ hrun rfl).1⟩

def firstMarks (trace : List (V7Generator × Call)) : List Nat :=
  (trace.head?.map fun taken => reading taken.2).toList ++
    trace.flatMap fun taken => (borrowed taken.1 taken.2).toList

/-- A later reading moves the stamp on without borrowing. -/
theorem stamp_not_first_reading :
    ¬ ∀ trace generator call id, Run Calls .new trace generator →
      (generator.call call).2 = .ok id →
      ∃ stamp, id.unixMillis = some stamp ∧
        stamp ∈ firstMarks (trace ++ [(generator, call)]) ∧ reading call ≤ stamp := by
  intro h
  obtain ⟨stamp, hstamp, hmember, -⟩ := h [(V7Generator.new, .issueAt 5 drawn)] _
    (.issueAt 10 drawn) _ (Run.snoc .refl rfl) rfl
  have hten : stamp = 10 := by
    rw [unixMillis_assemble _ _ (by decide)] at hstamp
    exact (Option.some.inj hstamp).symm
  rw [hten] at hmember
  revert hmember
  decide

end LogicalWorks.V7
