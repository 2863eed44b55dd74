import Mathlib.Logic.Relation
import LogicalWorks.Lib.Call

/-! Calls that await: a future is driven through some of its suspension points and may be
dropped at any of them, before or after what it waits for has happened. -/
namespace LogicalWorks

/-- How an awaited call ends without an answer. -/
inductive Halt (ε : Type) where
  | refused (refusal : ε)
  | dropped

inductive Dropped where
  | dropped

/-- A state with how far its future will still be driven: each await takes two units, one
to start what it waits for and one to come back from it.  `none` is never dropped. -/
structure Polled (σ : Type) where
  patience : Option Nat
  state : σ

namespace Polled

variable {σ τ ε δ α β : Type}

def sync (call : Call σ ε α) : Call (Polled σ) (Halt ε) α := fun polled =>
  match call polled.state with
  | (.ok answer, next) => (.ok answer, { polled with state := next })
  | (.error refusal, next) => (.error (.refused refusal), { polled with state := next })

def await (call : Call σ ε α) : Call (Polled σ) (Halt ε) α := fun polled =>
  match polled.patience with
  | some 0 => (.error .dropped, polled)
  | some 1 => (.error .dropped, ⟨some 0, (call polled.state).2⟩)
  | some (left + 2) => sync call ⟨some left, polled.state⟩
  | none => sync call polled

def within (part : σ → τ) (put : σ → τ → σ) (call : Call (Polled τ) ε α) : Call (Polled σ) ε α :=
  fun polled =>
    ((call ⟨polled.patience, part polled.state⟩).1,
      ⟨(call ⟨polled.patience, part polled.state⟩).2.patience,
        put polled.state (call ⟨polled.patience, part polled.state⟩).2.state⟩)

def rename (f : ε → δ) (call : Call (Polled σ) (Halt ε) α) : Call (Polled σ) (Halt δ) α :=
  fun polled =>
    match call polled with
    | (.ok answer, next) => (.ok answer, next)
    | (.error (.refused refusal), next) => (.error (.refused (f refusal)), next)
    | (.error .dropped, next) => (.error .dropped, next)

def caught (call : Call (Polled σ) (Halt ε) α) : Call (Polled σ) Dropped (Except ε α) :=
  fun polled =>
    match call polled with
    | (.ok answer, next) => (.ok (.ok answer), next)
    | (.error (.refused refusal), next) => (.ok (.error refusal), next)
    | (.error .dropped, next) => (.error .dropped, next)

def now (call : σ → α × σ) : Call (Polled σ) δ α := fun polled =>
  (.ok (call polled.state).1, { polled with state := (call polled.state).2 })

def awaitNow (call : σ → α × σ) : Call (Polled σ) Dropped α := fun polled =>
  match polled.patience with
  | some 0 => (.error .dropped, polled)
  | some 1 => (.error .dropped, ⟨some 0, (call polled.state).2⟩)
  | some (left + 2) => now call ⟨some left, polled.state⟩
  | none => now call polled

theorem sync_state (call : Call σ ε α) (polled : Polled σ) :
    (sync call polled).2.state = (call polled.state).2 := by
  unfold sync
  rcases call polled.state with ⟨_ | _, _⟩ <;> rfl

theorem awaitNow_eq_ok {call : σ → α × σ} {polled next : Polled σ} {answer : α}
    (h : awaitNow call polled = (.ok answer, next)) :
    call polled.state = (answer, next.state) := by
  unfold awaitNow at h
  split at h
  · cases h
  · cases h
  · cases h
    rfl
  · cases h
    rfl

theorem awaitNow_eq_error {call : σ → α × σ} {polled next : Polled σ} {drop : Dropped}
    (h : awaitNow call polled = (.error drop, next)) :
    next.state = polled.state ∨ next.state = (call polled.state).2 := by
  unfold awaitNow at h
  split at h
  · cases h
    exact .inl rfl
  · cases h
    exact .inr rfl
  · cases h
  · cases h

theorem rename_snd (f : ε → δ) (call : Call (Polled σ) (Halt ε) α) (polled : Polled σ) :
    (rename f call polled).2 = (call polled).2 := by
  unfold rename
  rcases call polled with ⟨(_ | _) | _, _⟩ <;> rfl

theorem caught_snd (call : Call (Polled σ) (Halt ε) α) (polled : Polled σ) :
    (caught call polled).2 = (call polled).2 := by
  unfold caught
  rcases call polled with ⟨(_ | _) | _, _⟩ <;> rfl

@[simp] theorem now_bind (call : σ → α × σ) (rest : α → Call (Polled σ) δ β) (polled : Polled σ) :
    (now call >>= rest) polled =
      rest (call polled.state).1 { polled with state := (call polled.state).2 } := rfl

theorem bind_now_snd (call : Call (Polled σ) δ α) (answer : α → σ → β) (polled : Polled σ) :
    ((call >>= fun value => now fun state => (answer value state, state)) polled).2 =
      (call polled).2 := by
  rw [Call.bind_apply, Call.bind]
  rcases call polled with ⟨_ | _, _⟩ <;> rfl

theorem ends_now {P : Polled σ → Prop} {Q : α → Polled σ → Prop} {E : δ → Polled σ → Prop}
    {call : σ → α × σ}
    (h : ∀ polled, P polled →
      Q (call polled.state).1 { polled with state := (call polled.state).2 }) :
    Call.Ends P (now call : Call (Polled σ) δ α) Q E where
  ok hstate hcall := by
    cases hcall
    exact h _ hstate
  error _ hcall := by cases hcall

theorem ends_awaitNow {P : Polled σ → Prop} {Q : α → Polled σ → Prop}
    {E : Dropped → Polled σ → Prop} {call : σ → α × σ}
    (h : ∀ polled patience, P polled → Q (call polled.state).1 ⟨patience, (call polled.state).2⟩)
    (hbefore : ∀ polled drop patience, P polled → E drop ⟨patience, polled.state⟩)
    (hafter : ∀ polled drop patience, P polled → E drop ⟨patience, (call polled.state).2⟩) :
    Call.Ends P (awaitNow call) Q E where
  ok {polled next answer} hstate hcall := by
    have hok := h polled next.patience hstate
    rw [awaitNow_eq_ok hcall] at hok
    exact hok
  error {polled next drop} hstate hcall := by
    rcases awaitNow_eq_error hcall with hnext | hnext
    · have hdropped := hbefore polled drop next.patience hstate
      rw [← hnext] at hdropped
      exact hdropped
    · have hdropped := hafter polled drop next.patience hstate
      rw [← hnext] at hdropped
      exact hdropped

section Leads

variable {P : σ → Prop} {step : σ → σ → Prop}

/-- From wherever `P` holds, and however the call ends, it took a path of steps and `P` holds. -/
def Leads (P : σ → Prop) (step : σ → σ → Prop) (call : Call (Polled σ) ε α) : Prop :=
  ∀ polled, P polled.state →
    Relation.ReflTransGen step polled.state (call polled).2.state ∧ P (call polled).2.state

theorem Leads.pure (answer : α) : Leads P step (pure answer : Call (Polled σ) ε α) :=
  fun _ h => ⟨.refl, h⟩

theorem Leads.bind {call : Call (Polled σ) ε α} {rest : α → Call (Polled σ) ε β}
    (hcall : Leads P step call) (hrest : ∀ answer, Leads P step (rest answer)) :
    Leads P step (call >>= rest) := by
  intro polled hpolled
  obtain ⟨hpath, hkept⟩ := hcall polled hpolled
  rw [Call.bind_apply, Call.bind]
  rcases h : call polled with ⟨refusal | answer, next⟩
  · rw [h] at hpath hkept
    exact ⟨hpath, hkept⟩
  · rw [h] at hpath hkept
    obtain ⟨hlast, hfinal⟩ := hrest answer next hkept
    exact ⟨hpath.trans hlast, hfinal⟩

/-- What the call between two suspension points does is up to the state it starts from. -/
theorem Leads.now {call : σ → α × σ}
    (h : ∀ state, P state → Relation.ReflTransGen step state (call state).2 ∧ P (call state).2) :
    Leads P step (now call : Call (Polled σ) ε α) :=
  fun polled => h polled.state

theorem Leads.awaitNow {call : σ → α × σ}
    (h : ∀ state, P state → Relation.ReflTransGen step state (call state).2 ∧ P (call state).2) :
    Leads P step (awaitNow call) := by
  intro polled hpolled
  rcases hcall : Polled.awaitNow call polled with ⟨drop | answer, next⟩
  · rcases awaitNow_eq_error hcall with hnext | hnext
    · rw [hnext]
      exact ⟨.refl, hpolled⟩
    · rw [hnext]
      exact h polled.state hpolled
  · have hnext := congrArg Prod.snd (awaitNow_eq_ok hcall)
    dsimp only at hnext
    rw [← hnext]
    exact h polled.state hpolled

theorem Leads.sync {call : Call σ ε α}
    (h : ∀ state, P state → Relation.ReflTransGen step state (call state).2 ∧ P (call state).2) :
    Leads P step (sync call) := by
  intro polled hpolled
  rw [sync_state]
  exact h polled.state hpolled

theorem Leads.rename {call : Call (Polled σ) (Halt ε) α} (f : ε → δ) (h : Leads P step call) :
    Leads P step (rename f call) := by
  intro polled
  rw [rename_snd]
  exact h polled

theorem Leads.caught {call : Call (Polled σ) (Halt ε) α} (h : Leads P step call) :
    Leads P step (caught call) := by
  intro polled
  rw [caught_snd]
  exact h polled

theorem Leads.within {part : σ → τ} {put : σ → τ → σ} {call : Call (Polled τ) ε α}
    (h : ∀ state value, P state →
      Relation.ReflTransGen step state (put state value) ∧ P (put state value)) :
    Leads P step (within part put call) :=
  fun polled => h polled.state _

end Leads

end Polled

end LogicalWorks
