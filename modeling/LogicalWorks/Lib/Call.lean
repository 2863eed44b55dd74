import Mathlib.Logic.Basic

/-! Calls on a state: a call reads and changes a state and either answers or refuses,
keeping whatever it had changed.  The rules take a whole call apart into its pieces. -/
namespace LogicalWorks

def Call (σ ε α : Type) : Type := σ → Except ε α × σ

namespace Call

variable {σ τ ε δ α β : Type}

def bind (call : Call σ ε α) (rest : α → Call σ ε β) : Call σ ε β := fun state =>
  match call state with
  | (.ok answer, next) => rest answer next
  | (.error refusal, next) => (.error refusal, next)

instance : Monad (Call σ ε) where
  pure answer := fun state => (.ok answer, state)
  bind := bind

def refuse (refusal : ε) : Call σ ε α := fun state => (.error refusal, state)

def refuseIf (condition : Prop) [Decidable condition] (refusal : ε) : Call σ ε Unit :=
  fun state => (if condition then .error refusal else .ok (), state)

def onlyIf (condition : Prop) [Decidable condition] (call : Call σ ε Unit) : Call σ ε Unit :=
  fun state => if condition then call state else (.ok (), state)

def read (answer : σ → α) : Call σ ε α := fun state => (.ok (answer state), state)

def readOr (answer : σ → Except ε α) : Call σ ε α := fun state => (answer state, state)

def change (next : σ → σ) : Call σ ε Unit := fun state => (.ok (), next state)

def mapRefusal (rename : ε → δ) (call : Call σ ε α) : Call σ δ α := fun state =>
  match call state with
  | (.ok answer, next) => (.ok answer, next)
  | (.error refusal, next) => (.error (rename refusal), next)

def within (part : σ → τ) (put : σ → τ → σ) (call : Call τ ε α) : Call σ ε α := fun state =>
  ((call (part state)).1, put state (call (part state)).2)

def attempt (call : Call σ ε α) : Call σ δ (Except ε α) := fun state =>
  (.ok (call state).1, (call state).2)

@[simp] theorem pure_apply (answer : α) (state : σ) :
    (pure answer : Call σ ε α) state = (.ok answer, state) := rfl

@[simp] theorem refuse_apply (refusal : ε) (state : σ) :
    (refuse refusal : Call σ ε α) state = (.error refusal, state) := rfl

@[simp] theorem refuseIf_apply (condition : Prop) [Decidable condition] (refusal : ε) (state : σ) :
    (refuseIf condition refusal : Call σ ε Unit) state =
      (if condition then .error refusal else .ok (), state) := rfl

@[simp] theorem read_apply (answer : σ → α) (state : σ) :
    (read answer : Call σ ε α) state = (.ok (answer state), state) := rfl

@[simp] theorem readOr_apply (answer : σ → Except ε α) (state : σ) :
    readOr answer state = (answer state, state) := rfl

@[simp] theorem change_apply (next : σ → σ) (state : σ) :
    (change next : Call σ ε Unit) state = (.ok (), next state) := rfl

@[simp] theorem within_apply (part : σ → τ) (put : σ → τ → σ) (call : Call τ ε α) (state : σ) :
    within part put call state =
      ((call (part state)).1, put state (call (part state)).2) := rfl

@[simp] theorem attempt_apply (call : Call σ ε α) (state : σ) :
    (attempt call : Call σ δ (Except ε α)) state = (.ok (call state).1, (call state).2) := rfl

theorem bind_apply (call : Call σ ε α) (rest : α → Call σ ε β) (state : σ) :
    (call >>= rest) state = bind call rest state := rfl

theorem bind_of_ok {call : Call σ ε α} {rest : α → Call σ ε β} {state next : σ} {answer : α}
    (h : call state = (.ok answer, next)) : (call >>= rest) state = rest answer next := by
  rw [bind_apply, bind, h]

theorem bind_pure_snd (call : Call σ ε α) (f : α → β) (state : σ) :
    ((call >>= fun answer => pure (f answer)) state).2 = (call state).2 := by
  rw [bind_apply, bind]
  rcases call state with ⟨_ | _, _⟩ <;> rfl

theorem bind_eq_ok {call : Call σ ε α} {rest : α → Call σ ε β} {state final : σ} {answer : β} :
    (call >>= rest) state = (.ok answer, final) ↔
      ∃ middle next, call state = (.ok middle, next) ∧ rest middle next = (.ok answer, final) := by
  rw [bind_apply, bind]
  rcases call state with ⟨refusal | middle, next⟩
  · constructor
    · intro h
      cases h
    · rintro ⟨middle, other, h, -⟩
      cases h
  · constructor
    · intro h
      exact ⟨middle, next, rfl, h⟩
    · rintro ⟨other, otherNext, h, hrest⟩
      cases h
      exact hrest

theorem bind_eq_error {call : Call σ ε α} {rest : α → Call σ ε β} {state final : σ} {refusal : ε} :
    (call >>= rest) state = (.error refusal, final) ↔
      call state = (.error refusal, final) ∨
        ∃ middle next, call state = (.ok middle, next) ∧
          rest middle next = (.error refusal, final) := by
  rw [bind_apply, bind]
  rcases call state with ⟨other | middle, next⟩
  · constructor
    · intro h
      cases h
      exact .inl rfl
    · rintro (h | ⟨middle, otherNext, h, -⟩)
      · cases h
        rfl
      · cases h
  · constructor
    · intro h
      exact .inr ⟨middle, next, rfl, h⟩
    · rintro (h | ⟨otherMiddle, otherNext, h, hrest⟩)
      · cases h
      · cases h
        exact hrest

theorem refuseIf_of_not {condition : Prop} [Decidable condition] (refusal : ε) (state : σ)
    (h : ¬condition) : (refuseIf condition refusal : Call σ ε Unit) state = (.ok (), state) := by
  rw [refuseIf_apply, if_neg h]

@[simp] theorem mapRefusal_snd (rename : ε → δ) (call : Call σ ε α) (state : σ) :
    (mapRefusal rename call state).2 = (call state).2 := by
  unfold mapRefusal
  rcases call state with ⟨_ | _, _⟩ <;> rfl

/-- Wherever the call starts from `P` it ends in `Q`, whether it answers or refuses. -/
def Keeps (P : σ → Prop) (call : Call σ ε α) : Prop := ∀ state, P state → P (call state).2

theorem Keeps.bind {P : σ → Prop} {call : Call σ ε α} {rest : α → Call σ ε β}
    (hcall : Keeps P call) (hrest : ∀ answer, Keeps P (rest answer)) : Keeps P (call >>= rest) := by
  intro state hstate
  have hnext := hcall state hstate
  rw [bind_apply, Call.bind]
  rcases h : call state with ⟨refusal | answer, next⟩
  · rw [h] at hnext
    exact hnext
  · rw [h] at hnext
    exact hrest answer next hnext

structure Ends (P : σ → Prop) (call : Call σ ε α) (Q : α → σ → Prop) (E : ε → σ → Prop) : Prop where
  ok : ∀ {state next answer}, P state → call state = (.ok answer, next) → Q answer next
  error : ∀ {state next refusal}, P state → call state = (.error refusal, next) → E refusal next

theorem Ends.bind {P : σ → Prop} {call : Call σ ε α} {rest : α → Call σ ε β}
    {Q : α → σ → Prop} {R : β → σ → Prop} {E : ε → σ → Prop}
    (hcall : Ends P call Q E) (hrest : ∀ answer, Ends (Q answer) (rest answer) R E) :
    Ends P (call >>= rest) R E where
  ok hstate h := by
    obtain ⟨middle, next, hfirst, hlast⟩ := bind_eq_ok.mp h
    exact (hrest middle).ok (hcall.ok hstate hfirst) hlast
  error hstate h := by
    rcases bind_eq_error.mp h with hfirst | ⟨middle, next, hfirst, hlast⟩
    · exact hcall.error hstate hfirst
    · exact (hrest middle).error (hcall.ok hstate hfirst) hlast

theorem Ends.pure {P : σ → Prop} {Q : α → σ → Prop} {E : ε → σ → Prop} {answer : α}
    (h : ∀ state, P state → Q answer state) : Ends P (pure answer : Call σ ε α) Q E where
  ok hstate hcall := by
    cases hcall
    exact h _ hstate
  error _ hcall := by cases hcall

theorem Ends.assuming {P : σ → Prop} {C : Prop} {call : Call σ ε α} {Q : α → σ → Prop}
    {E : ε → σ → Prop} (h : C → Ends P call Q E) : Ends (fun state => P state ∧ C) call Q E where
  ok hstate hcall := (h hstate.2).ok hstate.1 hcall
  error hstate hcall := (h hstate.2).error hstate.1 hcall

theorem Ends.mono {P P' : σ → Prop} {call : Call σ ε α} {Q Q' : α → σ → Prop}
    {E E' : ε → σ → Prop} (h : Ends P call Q E) (hP : ∀ state, P' state → P state)
    (hQ : ∀ answer state, Q answer state → Q' answer state)
    (hE : ∀ refusal state, E refusal state → E' refusal state) : Ends P' call Q' E' where
  ok hstate hcall := hQ _ _ (h.ok (hP _ hstate) hcall)
  error hstate hcall := hE _ _ (h.error (hP _ hstate) hcall)

end Call

end LogicalWorks
