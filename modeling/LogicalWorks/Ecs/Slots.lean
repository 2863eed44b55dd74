import LogicalWorks.Ecs.Runs

/-! What the ledger's updates leave in its slots, entry by entry. -/
namespace LogicalWorks.Ecs

namespace Ledger

variable {V J : Type}

theorem transition_put_of_ne (ledger : Ledger V J) {chain other : Nat} (h : other ≠ chain)
    (slot : Option (Transition V)) :
    (ledger.put chain slot).transition other = ledger.transition other := by
  simp [put, transition, List.getElem?_set_ne h.symm]

theorem lt_of_transition {ledger : Ledger V J} {chain : Nat} {held : Transition V}
    (h : ledger.transition chain = some held) : chain < ledger.transitions.length := by
  by_contra hout
  have hnone : ledger.transitions[chain]? = none := List.getElem?_eq_none (by omega)
  rw [transition, hnone] at h
  cases h

theorem put_of_transition {ledger : Ledger V J} {chain : Nat} {held : Transition V}
    (h : ledger.transition chain = some held) : ledger.put chain (some held) = ledger := by
  have hlt := lt_of_transition h
  have hslot : ledger.transitions[chain]? = some (some held) := by
    unfold transition at h
    rw [List.getElem?_eq_getElem hlt] at h ⊢
    exact congrArg some h
  have hset : ledger.transitions.set chain (some held) = ledger.transitions := by
    rw [← (List.getElem?_eq_some_iff.mp hslot).2]
    exact List.set_getElem_self hlt
  unfold put
  rw [hset]

theorem transition_onTransition (ledger : Ledger V J) (chain other : Nat)
    (f : Transition V → Transition V) :
    (ledger.onTransition chain f).transition other =
      if other = chain then (ledger.transition chain).map f else ledger.transition other := by
  unfold onTransition transition
  rw [List.getElem?_modify]
  by_cases h : other = chain
  · subst h
    cases ledger.transitions[other]? <;> simp
  · simp [h, Ne.symm h]

theorem transition_setEntry (ledger : Ledger V J) (id : WorkId) (state : EntryState) (other : Nat) :
    (ledger.setEntry id state).transition other =
      if other = id.chain then (ledger.transition id.chain).map fun transition =>
        { transition with entries := transition.entries.set id.entry state }
      else ledger.transition other :=
  ledger.transition_onTransition id.chain other _

theorem entryState_setEntry_of_ne (ledger : Ledger V J) {id other : WorkId} (h : other ≠ id)
    (state : EntryState) : (ledger.setEntry id state).entryState other = ledger.entryState other := by
  unfold entryState
  rw [transition_setEntry]
  split
  · rename_i hchain
    rw [hchain]
    cases ledger.transition id.chain with
    | none => rfl
    | some held =>
      have hentry : id.entry ≠ other.entry := by
        intro hsame
        apply h
        cases other
        cases id
        simp_all
      exact List.getElem?_set_ne hentry
  · rfl

theorem attemptRecord_setEntry (ledger : Ledger V J) (id other : WorkId) (state : EntryState) :
    (ledger.setEntry id state).attemptRecord other = ledger.attemptRecord other := by
  unfold attemptRecord
  rw [transition_setEntry]
  split
  · rename_i hchain
    rw [hchain]
    cases ledger.transition id.chain <;> rfl
  · rfl

@[simp] theorem effects_put (ledger : Ledger V J) (chain : Nat) (slot : Option (Transition V)) :
    (ledger.put chain slot).effects = ledger.effects := rfl

@[simp] theorem actions_put (ledger : Ledger V J) (chain : Nat) (slot : Option (Transition V)) :
    (ledger.put chain slot).actions = ledger.actions := rfl

@[simp] theorem effects_setEntry (ledger : Ledger V J) (id : WorkId) (state : EntryState) :
    (ledger.setEntry id state).effects = ledger.effects := rfl

@[simp] theorem actions_setEntry (ledger : Ledger V J) (id : WorkId) (state : EntryState) :
    (ledger.setEntry id state).actions = ledger.actions := rfl

@[simp] theorem effects_setRecord (ledger : Ledger V J) (id : WorkId) (record : AttemptRecord) :
    (ledger.setRecord id record).effects = ledger.effects := rfl

@[simp] theorem actions_setRecord (ledger : Ledger V J) (id : WorkId) (record : AttemptRecord) :
    (ledger.setRecord id record).actions = ledger.actions := rfl

end Ledger

end LogicalWorks.Ecs
