import Mathlib.Data.List.Basic
import Mathlib.Logic.Basic

/-! Computations with a loop that is given a number of rounds: an answer, a refusal, or nothing
when the loop has not ended in them. -/
namespace LogicalWorks

abbrev Looping (ε : Type) := ExceptT ε Option

namespace Looping

variable {ε α β : Type}

instance decEq [DecidableEq ε] [DecidableEq α] : DecidableEq (Looping ε α) :=
  inferInstanceAs (DecidableEq (Option (Except ε α)))

def unfinished : Looping ε α := (none : Option (Except ε α))

def Ends (act : Looping ε α) : Prop := ∃ result, act = (some result : Option (Except ε α))

theorem ok_bind (value : α) (rest : α → Looping ε β) :
    (liftM (Except.ok value : Except ε α) : Looping ε α) >>= rest = rest value := rfl

theorem error_bind (cause : ε) (rest : α → Looping ε β) :
    (liftM (Except.error cause : Except ε α) : Looping ε α) >>= rest = throw cause := rfl

theorem throw_bind (cause : ε) (rest : α → Looping ε β) :
    (throw cause : Looping ε α) >>= rest = throw cause := rfl

end Looping

end LogicalWorks

/-! Actions that fail and keep the state they failed in, and what holds after one: a rule for each
way to build one. -/
namespace LogicalWorks.Fallible

variable {ε σ α β : Type}

def Ends (Q : α → σ → Prop) (E : ε → σ → Prop) : EStateM.Result ε σ α → Prop
  | .ok value state => Q value state
  | .error failure state => E failure state

structure Holds (P : σ → Prop) (act : EStateM ε σ α) (Q : α → σ → Prop) (E : ε → σ → Prop) :
    Prop where
  run : ∀ state, P state → Ends Q E (act state)

variable {P : σ → Prop} {Q : α → σ → Prop} {R : β → σ → Prop} {E : ε → σ → Prop}

theorem Holds.bind {act : EStateM ε σ α} {rest : α → EStateM ε σ β} (h : Holds P act Q E)
    (hrest : ∀ value, Holds (Q value) (rest value) R E) : Holds P (act >>= rest) R E := by
  constructor
  intro state hstate
  have hact := h.run state hstate
  change Ends R E (EStateM.bind act rest state)
  unfold EStateM.bind
  cases hrun : act state with
  | ok value next =>
    rw [hrun] at hact
    exact (hrest value).run next hact
  | error failure next =>
    rw [hrun] at hact
    exact hact

theorem Holds.pure {value : α} (h : ∀ state, P state → Q value state) :
    Holds P (pure value : EStateM ε σ α) Q E := ⟨h⟩

theorem Holds.throw {failure : ε} (h : ∀ state, P state → E failure state) :
    Holds P (throw failure : EStateM ε σ α) Q E := ⟨h⟩

theorem Holds.set {Q : PUnit → σ → Prop} {next : σ} (h : ∀ state, P state → Q ⟨⟩ next) :
    Holds P (MonadStateOf.set next : EStateM ε σ PUnit) Q E := ⟨h⟩

theorem Holds.modify {Q : PUnit → σ → Prop} {change : σ → σ}
    (h : ∀ state, P state → Q ⟨⟩ (change state)) :
    Holds P (modify change : EStateM ε σ PUnit) Q E := ⟨h⟩

theorem Holds.ofExcept {result : Except ε α} (hok : ∀ value, result = .ok value → ∀ state, P state →
    Q value state) (hfail : ∀ failure state, P state → E failure state) :
    Holds P (MonadExcept.ofExcept result : EStateM ε σ α) Q E := by
  constructor
  intro state hstate
  cases hrun : result with
  | ok value => exact hok value hrun state hstate
  | error failure => exact hfail failure state hstate

theorem get_bind (rest : σ → EStateM ε σ β) (state : σ) :
    (MonadState.get >>= rest : EStateM ε σ β) state = rest state state := rfl

theorem Holds.read {act : σ → EStateM ε σ β}
    (h : ∀ state, P state → Holds (· = state) (act state) R E) :
    Holds P (MonadState.get >>= act) R E :=
  ⟨fun state hstate => (h state hstate).run state rfl⟩

theorem Holds.conseq {P' : σ → Prop} {Q' : α → σ → Prop} {E' : ε → σ → Prop}
    {act : EStateM ε σ α} (h : Holds P act Q E) (hpre : ∀ state, P' state → P state)
    (hpost : ∀ value state, Q value state → Q' value state)
    (hfail : ∀ failure state, E failure state → E' failure state) : Holds P' act Q' E' := by
  constructor
  intro state hstate
  have hact := h.run state (hpre state hstate)
  cases hrun : act state with
  | ok value next =>
    rw [hrun] at hact
    exact hpost value next hact
  | error failure next =>
    rw [hrun] at hact
    exact hfail failure next hact

theorem Holds.refuses {E' : ε → σ → Prop} {act : EStateM ε σ α} (h : Holds P act Q E)
    (hfail : ∀ failure state, E failure state → E' failure state) : Holds P act Q E' :=
  h.conseq (fun _ => id) (fun _ _ => id) hfail

theorem Holds.of_each {act : EStateM ε σ α}
    (h : ∀ state, P state → Holds (· = state) act Q E) : Holds P act Q E :=
  ⟨fun state hstate => (h state hstate).run state rfl⟩

theorem Holds.both {act : EStateM ε σ α} {Q' : α → σ → Prop} {E' : ε → σ → Prop}
    (h : Holds P act Q E) (h' : Holds P act Q' E') :
    Holds P act (fun value state => Q value state ∧ Q' value state)
      (fun failure state => E failure state ∧ E' failure state) := by
  constructor
  intro state hstate
  have hact := h.run state hstate
  have hact' := h'.run state hstate
  cases hrun : act state with
  | ok value next =>
    rw [hrun] at hact hact'
    exact ⟨hact, hact'⟩
  | error failure next =>
    rw [hrun] at hact hact'
    exact ⟨hact, hact'⟩

end LogicalWorks.Fallible
