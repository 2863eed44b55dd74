import Mathlib.Data.List.Nodup
import LogicalWorks.Lib.Index
import LogicalWorks.Journal.Continuation

/-! Recovery: what is known about each attempt after a replay, as a fold over a
checkpoint's carried attempts and then over a journal's own events. -/
namespace LogicalWorks.Journal

structure Attempt where
  key : EffectKey
  status : AttemptStatus
  verification : Option Verification
  deriving DecidableEq, Repr

/-- One change of an attempt's recovered status, at a place in the folded sequence. -/
structure Transition where
  fromStatus : Option AttemptStatus
  toStatus : AttemptStatus
  position : Nat
  deriving DecidableEq, Repr

def EffectEvent.status : EffectEvent → AttemptStatus
  | .intentAdmitted _ => .prepared
  | .dispatchPrepared _ => .outcomeUnknown
  | .outcomeObserved _ .applied => .applied
  | .outcomeObserved _ .notApplied => .notApplied
  | .verified _ verification =>
    match verification.result with
    | .satisfied => .verified
    | .notSatisfied => .verificationFailed

def EffectEvent.verification : EffectEvent → Option Verification
  | .verified _ verification => some verification
  | _ => none

def Attempt.observe (attempt : Attempt) (event : EffectEvent) : Attempt :=
  { attempt with
    status := event.status
    verification := event.verification.or attempt.verification }

/-- Every attempt a journal's events mention, in the order it first mentions them. -/
structure Recovered where
  attempts : List Attempt
  index : Index EffectKey Nat
  transitions : List (List Transition)

namespace Recovered

def empty : Recovered := ⟨[], Index.empty, []⟩

def status (recovered : Recovered) (key : EffectKey) : Option AttemptStatus :=
  (recovered.index.get key).bind fun index =>
    (recovered.attempts[index]?).map Attempt.status

def verification (recovered : Recovered) (key : EffectKey) : Option Verification :=
  (recovered.index.get key).bind fun index =>
    (recovered.attempts[index]?).bind Attempt.verification

def history (recovered : Recovered) (key : EffectKey) : List Transition :=
  match (recovered.index.get key).bind fun index => recovered.transitions[index]? with
  | some transitions => transitions
  | none => []

def uncertain (recovered : Recovered) : List EffectKey :=
  (recovered.attempts.filter fun attempt => attempt.status.isUncertain).map Attempt.key

def push (recovered : Recovered) (attempt : Attempt) (position : Nat) : Recovered where
  attempts := recovered.attempts ++ [attempt]
  index := recovered.index.insert attempt.key recovered.attempts.length
  transitions := recovered.transitions ++ [[⟨none, attempt.status, position⟩]]

def seed (recovered : Recovered) (attempt : Attempt) : Recovered :=
  recovered.push attempt recovered.attempts.length

def foldEvent (recovered : Recovered) (position : Nat) (event : EffectEvent) : Recovered :=
  match recovered.index.get event.key with
  | some index =>
    match recovered.attempts[index]? with
    | some attempt =>
      { recovered with
        attempts := recovered.attempts.set index (attempt.observe event)
        transitions := recovered.transitions.modify index
          (· ++ [⟨some attempt.status, event.status, position⟩]) }
    | none => recovered
  | none => recovered.push ⟨event.key, event.status, event.verification⟩ position

def foldEventsFrom (recovered : Recovered) (position : Nat) : List EffectEvent → Recovered
  | [] => recovered
  | event :: rest => (recovered.foldEvent position event).foldEventsFrom (position + 1) rest

def foldEvents (recovered : Recovered) (events : List EffectEvent) : Recovered :=
  recovered.foldEventsFrom 0 events

end Recovered

def SettledAttempt.seeded (record : SettledAttempt) : Option Attempt :=
  match record.status, record.rung with
  | some status, some _ => some ⟨record.key, status, record.verification⟩
  | _, _ => none

def UnresolvedAttempt.seeded (record : UnresolvedAttempt) : Option Attempt :=
  match record.recoveredStatus with
  | some status => some ⟨record.key, status, none⟩
  | none => none

def Continuation.seeds (checkpoint : Continuation) : List Attempt :=
  checkpoint.settled.filterMap SettledAttempt.seeded ++
    checkpoint.unresolved.filterMap UnresolvedAttempt.seeded

def seedsOf : Option Continuation → List Attempt
  | some checkpoint => checkpoint.seeds
  | none => []

def recoverContinued (base : Option Continuation) (events : List EffectEvent) : Recovered :=
  ((seedsOf base).foldl Recovered.seed Recovered.empty).foldEvents events

def recover (events : List EffectEvent) : Recovered :=
  recoverContinued none events

namespace Recovered

structure Consistent (recovered : Recovered) : Prop where
  index_sound : ∀ {key index}, recovered.index.get key = some index →
    ∃ attempt, recovered.attempts[index]? = some attempt ∧ attempt.key = key
  index_complete : ∀ attempt ∈ recovered.attempts, recovered.index.get attempt.key ≠ none

theorem consistent_empty : Consistent empty where
  index_sound := by
    intro key index h
    simp [empty] at h
  index_complete := by
    intro attempt h
    simp [empty] at h

theorem consistent_push {recovered : Recovered} (h : recovered.Consistent)
    (attempt : Attempt) (position : Nat) : (recovered.push attempt position).Consistent where
  index_sound := by
    intro key index hindex
    simp only [push, Index.get_insert] at hindex ⊢
    split at hindex
    · rename_i hkey
      cases hindex
      exact ⟨attempt, by simp, hkey.symm⟩
    · obtain ⟨other, hother, hotherKey⟩ := h.index_sound hindex
      have hlt : index < recovered.attempts.length := by
        exact (List.getElem?_eq_some_iff.mp hother).1
      exact ⟨other, by rw [List.getElem?_append_left hlt, hother], hotherKey⟩
  index_complete := by
    intro other hother
    simp only [push, List.mem_append, List.mem_singleton, Index.get_insert] at hother ⊢
    split
    · simp
    · rename_i hkey
      rcases hother with hother | rfl
      · exact h.index_complete other hother
      · exact absurd rfl hkey

@[simp] theorem key_observe (attempt : Attempt) (event : EffectEvent) :
    (attempt.observe event).key = attempt.key := rfl

@[simp] theorem status_observe (attempt : Attempt) (event : EffectEvent) :
    (attempt.observe event).status = event.status := rfl

/-- What one event does to a consistent report: it changes the one attempt it names in
place, or adds that attempt at the end. -/
theorem foldEvent_cases {recovered : Recovered} (h : recovered.Consistent)
    (position : Nat) (event : EffectEvent) :
    (∃ index attempt, recovered.index.get event.key = some index ∧
        recovered.attempts[index]? = some attempt ∧ attempt.key = event.key ∧
        (recovered.foldEvent position event).index = recovered.index ∧
        (recovered.foldEvent position event).attempts =
          recovered.attempts.set index (attempt.observe event)) ∨
    (recovered.index.get event.key = none ∧
      recovered.foldEvent position event =
        recovered.push ⟨event.key, event.status, event.verification⟩ position) := by
  cases hindex : recovered.index.get event.key with
  | none =>
    right
    refine ⟨rfl, ?_⟩
    simp only [foldEvent, hindex]
  | some index =>
    left
    obtain ⟨attempt, hattempt, hkey⟩ := h.index_sound hindex
    refine ⟨index, attempt, rfl, hattempt, hkey, ?_, ?_⟩
    · simp only [foldEvent, hindex, hattempt]
    · simp only [foldEvent, hindex, hattempt]

private theorem map_key_set {attempts : List Attempt} {index : Nat} {attempt : Attempt}
    (h : attempts[index]? = some attempt) (event : EffectEvent) :
    (attempts.set index (attempt.observe event)).map Attempt.key = attempts.map Attempt.key := by
  obtain ⟨hlt, hget⟩ := List.getElem?_eq_some_iff.mp h
  rw [List.map_set, key_observe, ← hget]
  have hltMap : index < (attempts.map Attempt.key).length := by simpa using hlt
  have hmap : (attempts.map Attempt.key).set index (attempts.map Attempt.key)[index] =
      attempts.map Attempt.key :=
    List.set_getElem_self hltMap
  rwa [List.getElem_map] at hmap

theorem consistent_foldEvent {recovered : Recovered} (h : recovered.Consistent)
    (position : Nat) (event : EffectEvent) : (recovered.foldEvent position event).Consistent := by
  rcases foldEvent_cases h position event with
    ⟨index, attempt, hindex, hattempt, hkey, hindexEq, hattemptsEq⟩ | ⟨-, hpush⟩
  · have hkeys := map_key_set hattempt event
    refine ⟨?_, ?_⟩
    · intro key other hother
      rw [hindexEq] at hother
      obtain ⟨found, hfound, hfoundKey⟩ := h.index_sound hother
      have hkeyAt : ((recovered.attempts.set index (attempt.observe event)).map
          Attempt.key)[other]? = some key := by
        rw [hkeys, List.getElem?_map, hfound]
        exact congrArg some hfoundKey
      rw [List.getElem?_map, Option.map_eq_some_iff] at hkeyAt
      rw [hattemptsEq]
      exact hkeyAt
    · intro other hother
      have hmem : other.key ∈ recovered.attempts.map Attempt.key := by
        rw [← hkeys, ← hattemptsEq]
        exact List.mem_map_of_mem hother
      obtain ⟨found, hfound, hfoundKey⟩ := List.mem_map.mp hmem
      rw [hindexEq, ← hfoundKey]
      exact h.index_complete found hfound
  · rw [hpush]
    exact consistent_push h _ position

theorem consistent_foldEventsFrom {recovered : Recovered} (h : recovered.Consistent)
    (position : Nat) (events : List EffectEvent) :
    (recovered.foldEventsFrom position events).Consistent := by
  induction events generalizing recovered position with
  | nil => exact h
  | cons event rest ih => exact ih (consistent_foldEvent h position event) (position + 1)

theorem consistent_seeds (seeds : List Attempt) {recovered : Recovered}
    (h : recovered.Consistent) : (seeds.foldl seed recovered).Consistent := by
  induction seeds generalizing recovered with
  | nil => exact h
  | cons attempt rest ih => exact ih (consistent_push h attempt _)

@[simp] theorem attempts_seeds (seeds : List Attempt) (recovered : Recovered) :
    (seeds.foldl seed recovered).attempts = recovered.attempts ++ seeds := by
  induction seeds generalizing recovered with
  | nil => simp
  | cons attempt rest ih => simp [ih, seed, push]

theorem Consistent.mem_keys_iff {recovered : Recovered} (h : recovered.Consistent)
    (key : EffectKey) :
    key ∈ recovered.attempts.map Attempt.key ↔ recovered.index.get key ≠ none := by
  constructor
  · intro hmem
    obtain ⟨attempt, hattempt, rfl⟩ := List.mem_map.mp hmem
    exact h.index_complete attempt hattempt
  · intro hindex
    obtain ⟨index, hget⟩ := Option.ne_none_iff_exists'.mp hindex
    obtain ⟨attempt, hattempt, hkey⟩ := h.index_sound hget
    exact List.mem_map.mpr ⟨attempt, List.mem_of_getElem? hattempt, hkey⟩

theorem keys_foldEvent {recovered : Recovered} (h : recovered.Consistent)
    (position : Nat) (event : EffectEvent) :
    (recovered.foldEvent position event).attempts.map Attempt.key =
      if event.key ∈ recovered.attempts.map Attempt.key then recovered.attempts.map Attempt.key
      else recovered.attempts.map Attempt.key ++ [event.key] := by
  rcases foldEvent_cases h position event with
    ⟨index, attempt, hindex, hattempt, hkey, -, hattemptsEq⟩ | ⟨hindex, hpush⟩
  · have hmem : event.key ∈ recovered.attempts.map Attempt.key := by
      rw [h.mem_keys_iff, hindex]
      simp
    rw [if_pos hmem, hattemptsEq, map_key_set hattempt]
  · have hmem : event.key ∉ recovered.attempts.map Attempt.key := by
      rw [h.mem_keys_iff, hindex]
      simp
    rw [if_neg hmem, hpush]
    simp [push]

theorem mem_keys_foldEventsFrom {recovered : Recovered} (h : recovered.Consistent)
    (position : Nat) (events : List EffectEvent) (key : EffectKey) :
    key ∈ (recovered.foldEventsFrom position events).attempts.map Attempt.key ↔
      key ∈ recovered.attempts.map Attempt.key ∨ ∃ event ∈ events, event.key = key := by
  induction events generalizing recovered position with
  | nil => simp [foldEventsFrom]
  | cons event rest ih =>
    rw [foldEventsFrom, ih (consistent_foldEvent h position event), keys_foldEvent h]
    simp only [List.mem_cons, exists_eq_or_imp]
    split
    · rename_i hmem
      constructor
      · rintro (hold | hrest)
        · exact Or.inl hold
        · exact Or.inr (Or.inr hrest)
      · rintro (hold | rfl | hrest)
        · exact Or.inl hold
        · exact Or.inl hmem
        · exact Or.inr hrest
    · rw [List.mem_append, List.mem_singleton, or_assoc, eq_comm (a := key)]

theorem nodup_keys_foldEventsFrom {recovered : Recovered} (h : recovered.Consistent)
    (hnodup : (recovered.attempts.map Attempt.key).Nodup) (position : Nat)
    (events : List EffectEvent) :
    ((recovered.foldEventsFrom position events).attempts.map Attempt.key).Nodup := by
  induction events generalizing recovered position with
  | nil => exact hnodup
  | cons event rest ih =>
    apply ih (consistent_foldEvent h position event)
    rw [keys_foldEvent h]
    split
    · exact hnodup
    · rename_i hmem
      exact List.nodup_append'.mpr
        ⟨hnodup, List.nodup_singleton _, by simpa using hmem⟩

theorem exists_attempt_foldEventsFrom {P : Attempt → Prop} {recovered : Recovered}
    (h : recovered.Consistent) (hsome : ∃ attempt ∈ recovered.attempts, P attempt)
    (position : Nat) {events : List EffectEvent}
    (hobserve : ∀ event ∈ events, ∀ attempt, attempt.key = event.key → P attempt →
      P (attempt.observe event)) :
    ∃ attempt ∈ (recovered.foldEventsFrom position events).attempts, P attempt := by
  induction events generalizing recovered position with
  | nil => exact hsome
  | cons event rest ih =>
    apply ih (consistent_foldEvent h position event)
    · obtain ⟨attempt, hmem, hattempt⟩ := hsome
      rcases foldEvent_cases h position event with
        ⟨index, old, -, hold, hkey, -, hattemptsEq⟩ | ⟨-, hpush⟩
      · rw [hattemptsEq]
        obtain ⟨place, hplace⟩ := List.getElem?_of_mem hmem
        by_cases hsame : index = place
        · subst hsame
          have heq : old = attempt := Option.some.inj (hold.symm.trans hplace)
          subst heq
          have hlt := (List.getElem?_eq_some_iff.mp hold).1
          exact ⟨old.observe event, List.mem_set hlt _,
            hobserve event List.mem_cons_self old hkey hattempt⟩
        · refine ⟨attempt, ?_, hattempt⟩
          apply List.mem_of_getElem?
          rw [List.getElem?_set_ne hsame]
          exact hplace
      · rw [hpush]
        exact ⟨attempt, List.mem_append_left _ hmem, hattempt⟩
    · intro other hother
      exact hobserve other (List.mem_cons_of_mem _ hother)

theorem Consistent.index_get_of_mem {recovered : Recovered} (h : recovered.Consistent)
    (hnodup : (recovered.attempts.map Attempt.key).Nodup) {attempt : Attempt}
    (hmem : attempt ∈ recovered.attempts) :
    ∃ index, recovered.index.get attempt.key = some index ∧
      recovered.attempts[index]? = some attempt := by
  obtain ⟨index, hindex⟩ := Option.ne_none_iff_exists'.mp (h.index_complete attempt hmem)
  obtain ⟨found, hfound, hkey⟩ := h.index_sound hindex
  have hsame : found = attempt :=
    List.inj_on_of_nodup_map hnodup (List.mem_of_getElem? hfound) hmem hkey
  exact ⟨index, hindex, by rw [hfound, hsame]⟩

theorem Consistent.status_of_mem {recovered : Recovered} (h : recovered.Consistent)
    (hnodup : (recovered.attempts.map Attempt.key).Nodup) {attempt : Attempt}
    (hmem : attempt ∈ recovered.attempts) :
    recovered.status attempt.key = some attempt.status := by
  obtain ⟨index, hindex, hattempt⟩ := h.index_get_of_mem hnodup hmem
  simp [status, hindex, hattempt]

theorem Consistent.verification_of_mem {recovered : Recovered} (h : recovered.Consistent)
    (hnodup : (recovered.attempts.map Attempt.key).Nodup) {attempt : Attempt}
    (hmem : attempt ∈ recovered.attempts) :
    recovered.verification attempt.key = attempt.verification := by
  obtain ⟨index, hindex, hattempt⟩ := h.index_get_of_mem hnodup hmem
  simp [verification, hindex, hattempt]

theorem Consistent.status_eq_none {recovered : Recovered} (h : recovered.Consistent)
    {key : EffectKey} (hmem : key ∉ recovered.attempts.map Attempt.key) :
    recovered.status key = none := by
  rw [h.mem_keys_iff, not_not] at hmem
  simp [status, hmem]

end Recovered

theorem consistent_recoverContinued (base : Option Continuation) (events : List EffectEvent) :
    (recoverContinued base events).Consistent :=
  Recovered.consistent_foldEventsFrom
    (Recovered.consistent_seeds _ Recovered.consistent_empty) 0 events

@[simp] theorem attempts_recoverContinued_nil (base : Option Continuation) :
    (recoverContinued base []).attempts = seedsOf base := by
  simp [recoverContinued, Recovered.foldEvents, Recovered.foldEventsFrom, Recovered.empty]

theorem mem_keys_recoverContinued (base : Option Continuation) (events : List EffectEvent)
    (key : EffectKey) :
    key ∈ (recoverContinued base events).attempts.map Attempt.key ↔
      key ∈ (seedsOf base).map Attempt.key ∨ ∃ event ∈ events, event.key = key := by
  have h := Recovered.mem_keys_foldEventsFrom
    (Recovered.consistent_seeds (seedsOf base) Recovered.consistent_empty) 0 events key
  rwa [Recovered.attempts_seeds, Recovered.empty, List.nil_append] at h

theorem nodup_keys_recoverContinued {base : Option Continuation}
    (hbase : ((seedsOf base).map Attempt.key).Nodup) (events : List EffectEvent) :
    ((recoverContinued base events).attempts.map Attempt.key).Nodup := by
  apply Recovered.nodup_keys_foldEventsFrom
    (Recovered.consistent_seeds (seedsOf base) Recovered.consistent_empty)
  simpa [Recovered.empty] using hbase

end LogicalWorks.Journal
