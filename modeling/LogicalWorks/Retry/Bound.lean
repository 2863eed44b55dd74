import LogicalWorks.Retry.Policy
import Mathlib.Algebra.Order.Ring.Nat

/-! What a retry budget grants: the reserve and a fifth of the first attempts, however its calls
interleave. -/
namespace LogicalWorks.Retry

section Balance

variable {policy : Policy} {kind : Kind} {stale : Bool} {held next : Nat}

theorem clamp_le (stale : Bool) (held : Nat) : clamp stale held ≤ held := by
  unfold clamp
  split
  · exact Nat.min_le_left _ _
  · exact Nat.le_refl _

theorem checkedSub_eq_some {left right rest : Nat} :
    checkedSub left right = some rest ↔ left = rest + right := by
  unfold checkedSub
  split
  · simp only [Option.some.injEq]
    omega
  · simp only [reduceCtorEq, false_iff]
    omega

theorem saturatingAdd_le (left right : Nat) : saturatingAdd left right ≤ left + right :=
  Nat.min_le_left _ _

theorem saturatingAdd_le_max (left right : Nat) : saturatingAdd left right ≤ u64Max :=
  Nat.min_le_right _ _

theorem earns_le (h : policy.update .firstAttempt stale held = some next) :
    next ≤ held + retryRatioMilli := by
  unfold Policy.update at h
  have hclamp := clamp_le stale held
  split at h
  · cases h
    have hsum := saturatingAdd_le (clamp stale held) retryRatioMilli
    have hcap := Nat.min_le_left (saturatingAdd (clamp stale held) retryRatioMilli) retryCeilingMilli
    omega
  · cases h
    exact saturatingAdd_le held retryRatioMilli
  · contradiction
  · contradiction

theorem spends_le (h : policy.update .takeRetry stale held = some next) : next + milli ≤ held := by
  unfold Policy.update at h
  have hclamp := clamp_le stale held
  split at h
  · contradiction
  · contradiction
  · have hleft := checkedSub_eq_some.mp h
    omega
  · have hleft := checkedSub_eq_some.mp h
    omega

def Policy.most (policy : Policy) : Nat :=
  if policy.window.isSome then retryCeilingMilli else u64Max

theorem Policy.most_le (policy : Policy) : policy.most ≤ u64Max := by
  unfold Policy.most
  split
  · unfold retryCeilingMilli retryEarnedCapMilli retryReserveMilli retryReserve milli u64Max
    omega
  · exact Nat.le_refl _

theorem update_le_most (hheld : held ≤ policy.most)
    (h : policy.update kind stale held = some next) : next ≤ policy.most := by
  cases kind with
  | takeRetry =>
    have hspent := spends_le h
    omega
  | firstAttempt =>
    unfold Policy.update at h
    unfold Policy.most
    cases hwindow : policy.window with
    | none =>
      rw [hwindow] at h
      cases h
      exact saturatingAdd_le_max _ _
    | some window =>
      rw [hwindow] at h
      cases h
      exact Nat.min_le_right _ _

end Balance

def Stage.landed : Stage → Bool
  | .stamping _ | .returned _ => true
  | _ => false

def Call.earned (call : Call) : Bool := call.kind = .firstAttempt && call.stage.landed

def Call.granted (call : Call) : Bool := call.kind = .takeRetry && call.stage = .returned true

namespace World

def earned (world : World) : Nat := world.calls.countP Call.earned

def paid (world : World) : Nat := milli * world.granted + world.policy.retries

theorem earned_le_firsts (world : World) : world.earned ≤ world.firsts := by
  unfold earned firsts
  refine List.countP_mono_left fun call _ h => ?_
  unfold Call.earned at h
  exact (Bool.and_eq_true_iff.mp h).1

end World

theorem countP_set_add {α : Type} (p : α → Bool) {items : List α} {place : Nat} {old : α} (new : α)
    (h : items[place]? = some old) :
    (items.set place new).countP p + (p old).toNat = items.countP p + (p new).toNat := by
  induction items generalizing place with
  | nil => cases h
  | cons first rest ih =>
    cases place with
    | zero =>
      cases h
      simp only [List.set_cons_zero, List.countP_cons]
      cases p old <;> cases p new <;> simp
    | succ place =>
      have hrest := ih h
      simp only [List.set_cons_succ, List.countP_cons]
      omega

section Account

variable {world next : World} {action : Action}

inductive Effect (world : World) (action : Action) (next : World) : Prop where
  | idle (hpolicy : next.policy.retries = world.policy.retries)
      (hgranted : next.granted = world.granted) (hearned : world.earned = next.earned)
  | earn (hearns : Earns world action)
      (hpolicy : next.policy.retries ≤ world.policy.retries + retryRatioMilli)
      (hgranted : next.granted = world.granted) (hearned : next.earned = world.earned + 1)
  | grant (hpolicy : next.policy.retries + milli ≤ world.policy.retries)
      (hgranted : next.granted = world.granted + 1) (hearned : next.earned = world.earned)

theorem granted_eq (world : World) : world.granted = world.calls.countP Call.granted := rfl

theorem Effect.moved {call : Nat} {kind : Kind} {old new : Stage} {policy : Policy}
    (h : world.calls[call]? = some ⟨kind, old⟩) (hpolicy : policy.retries = world.policy.retries)
    (hgranted : Call.granted ⟨kind, old⟩ = Call.granted ⟨kind, new⟩)
    (hearned : Call.earned ⟨kind, old⟩ = Call.earned ⟨kind, new⟩) :
    Effect world action ⟨policy, world.calls.set call ⟨kind, new⟩⟩ := by
  have hg := countP_set_add Call.granted ⟨kind, new⟩ h
  have he := countP_set_add Call.earned ⟨kind, new⟩ h
  refine .idle hpolicy ?_ ?_
  · rw [granted_eq, granted_eq]
    rw [hgranted] at hg
    exact Nat.add_right_cancel hg
  · unfold World.earned
    rw [hearned] at he
    exact (Nat.add_right_cancel he).symm

theorem refused_kind {policy : Policy} {kind : Kind} {stale : Bool} {held : Nat}
    (h : policy.update kind stale held = none) : kind = .takeRetry := by
  cases kind with
  | takeRetry => rfl
  | firstAttempt =>
    unfold Policy.update at h
    cases hwindow : policy.window with
    | none => rw [hwindow] at h; cases h
    | some window => rw [hwindow] at h; cases h

theorem entry_not_landed (policy : Policy) : policy.entry.landed = false := by
  unfold Policy.entry
  split <;> rfl

theorem entry_not_returned (policy : Policy) : decide (policy.entry = .returned true) = false := by
  unfold Policy.entry
  split <;> rfl

theorem settled_firstAttempt (policy : Policy) (now : Nat) :
    Call.earned ⟨.firstAttempt, policy.settled .firstAttempt now⟩ = true := by
  unfold Policy.settled
  split <;> rfl

theorem Step.effect (h : Step world action next) : Effect world action next := by
  cases h with
  | call kind =>
    refine .idle rfl ?_ ?_
    · rw [granted_eq, granted_eq, List.countP_append, List.countP_singleton]
      unfold Call.granted
      rw [entry_not_returned, Bool.and_false]
      rfl
    · unfold World.earned
      rw [List.countP_append, List.countP_singleton]
      unfold Call.earned
      rw [entry_not_landed, Bool.and_false]
      rfl
  | read reading h => exact .moved h rfl rfl rfl
  | judge h hw => exact .moved h rfl rfl rfl
  | fetch h => exact .moved h rfl rfl rfl
  | miss h hnext => exact .moved h rfl rfl rfl
  | refuse h hnone =>
    cases refused_kind hnone
    exact .moved h rfl rfl rfl
  | stamp h => exact .moved h rfl rfl rfl
  | @exchange call now seen balance kind stale h hnext hsame =>
    have hg := countP_set_add Call.granted ⟨kind, world.policy.settled kind now⟩ h
    have he := countP_set_add Call.earned ⟨kind, world.policy.settled kind now⟩ h
    cases kind with
    | firstAttempt =>
      rw [settled_firstAttempt] at he
      refine .earn ⟨call, _, rfl, h⟩ ?_ ?_ ?_
      · rw [hsame]
        exact earns_le hnext
      · exact Nat.add_right_cancel hg
      · exact he
    | takeRetry =>
      refine .grant ?_ ?_ ?_
      · rw [hsame]
        exact spends_le hnext
      · exact hg
      · exact Nat.add_right_cancel he

theorem Step.quiet (h : Step world action next) (hquiet : ¬ Earns world action) :
    next.paid ≤ world.paid := by
  unfold World.paid
  cases h.effect with
  | idle hpolicy hgranted _ => rw [hpolicy, hgranted]
  | earn hearns _ _ _ => exact absurd hearns hquiet
  | grant hpolicy hgranted _ =>
    rw [hgranted, Nat.mul_add, Nat.mul_one]
    omega

theorem Step.window (h : Step world action next) :
    next.policy.window.isSome = world.policy.window.isSome := by
  cases h with
  | stamp h => exact Option.isSome_map
  | _ => rfl

theorem Step.most (h : Step world action next) : next.policy.most = world.policy.most := by
  unfold Policy.most
  rw [h.window]

theorem Step.held (h : Step world action next) (hother : ∀ call, action ≠ .exchange call) :
    next.policy.retries = world.policy.retries := by
  cases h with
  | exchange _ _ _ => exact absurd rfl (hother _)
  | _ => rfl

structure Accounted (world : World) : Prop where
  paid : world.paid ≤ retryReserveMilli + retryRatioMilli * world.earned
  bounded : world.policy.retries ≤ world.policy.most

theorem Accounted.step (haccounted : Accounted world) (h : Step world action next) :
    Accounted next := by
  have hpaid := haccounted.paid
  have hbounded := haccounted.bounded
  constructor
  · unfold World.paid at hpaid ⊢
    cases h.effect with
    | idle hpolicy hgranted hearned =>
      rw [hpolicy, hgranted, ← hearned]
      exact hpaid
    | earn _ hpolicy hgranted hearned =>
      rw [hgranted, hearned, Nat.mul_add, Nat.mul_one]
      omega
    | grant hpolicy hgranted hearned =>
      rw [hgranted, hearned, Nat.mul_add, Nat.mul_one]
      omega
  · rw [h.most]
    cases h with
    | exchange hcall hnext hsame =>
      rw [hsame] at hbounded
      exact update_le_most hbounded hnext
    | _ => exact hbounded

theorem Accounted.granted_le (h : Accounted world) :
    world.granted ≤ retryReserve + world.firsts / 5 := by
  have hpaid := h.paid
  have hfirsts := world.earned_le_firsts
  unfold World.paid at hpaid
  unfold retryReserveMilli retryReserve retryRatioMilli milli at hpaid
  unfold retryReserve
  omega

end Account

section Runs

variable {policy : Policy} {trace before after : List (World × Action)} {middle final : World}

def Policy.Fresh (policy : Policy) : Prop :=
  policy = .forThisMachine ∨ policy = .forThisHost

theorem Policy.Fresh.accounted (h : policy.Fresh) : Accounted (.start policy) := by
  rcases h with rfl | rfl
  · exact ⟨by decide, by decide⟩
  · exact ⟨by decide, by decide⟩

theorem accounted_of_run (hfresh : policy.Fresh) (run : Run Step (.start policy) trace final) :
    Accounted final :=
  run.always hfresh.accounted fun _ _ _ haccounted hstep => haccounted.step hstep

theorem window_of_run (run : Run Step middle trace final) :
    final.policy.window.isSome = middle.policy.window.isSome :=
  @Run.always _ _ _ _ _ _
    (fun world => world.policy.window.isSome = middle.policy.window.isSome) run rfl
    fun _ _ _ hsome hstep => hstep.window.trans hsome

/-- Between two first attempts that earn, a window grants twice the reserve at most. -/
theorem burst_le (haccounted : Accounted middle) (hwindow : middle.policy.window.isSome)
    (run : Run Step middle after final) (hquiet : ∀ taken ∈ after, ¬ Earns taken.1 taken.2) :
    final.granted ≤ middle.granted + 2 * retryReserve := by
  have hpaid : final.paid ≤ middle.paid :=
    @Run.invariant _ _ _ _ _ _ (fun world => world.paid ≤ middle.paid)
      (fun world action => ¬ Earns world action) run (Nat.le_refl _)
      (fun _ _ _ hpaid hallowed hstep => (hstep.quiet hallowed).trans hpaid) hquiet
  have hbounded := haccounted.bounded
  unfold Policy.most at hbounded
  rw [if_pos hwindow] at hbounded
  unfold World.paid at hpaid
  unfold retryCeilingMilli retryEarnedCapMilli retryReserveMilli retryReserve milli at hbounded
  unfold milli at hpaid
  unfold retryReserve
  omega

def Exchanged (call : Nat) (world : World) : Prop :=
  world.calls[call]? = some ⟨.takeRetry, .returned true⟩ ∨
    ∃ stage, world.calls[call]? = some ⟨.firstAttempt, stage⟩

theorem Exchanged.moved {world : World} {call other : Nat} {kind : Kind} {old new : Stage}
    {policy : Policy} (h : Exchanged call world) (hcall : world.calls[other]? = some ⟨kind, old⟩)
    (hopen : old ≠ .returned true) :
    Exchanged call ⟨policy, world.calls.set other ⟨kind, new⟩⟩ := by
  by_cases hsame : other = call
  · subst hsame
    have hlt := (List.getElem?_eq_some_iff.mp hcall).1
    rcases h with hreturned | ⟨stage, hstage⟩
    · rw [hreturned] at hcall
      cases hcall
      exact absurd rfl hopen
    · rw [hstage] at hcall
      cases hcall
      exact .inr ⟨new, List.getElem?_set_self hlt⟩
  · have hkept : (world.calls.set other ⟨kind, new⟩)[call]? = world.calls[call]? :=
      List.getElem?_set_ne hsame
    rcases h with hreturned | ⟨stage, hstage⟩
    · exact .inl (hkept.trans hreturned)
    · exact .inr ⟨stage, hkept.trans hstage⟩

theorem Exchanged.appended {world : World} {call : Nat} {last : Call} (h : Exchanged call world) :
    Exchanged call { world with calls := world.calls ++ [last] } := by
  rcases h with hreturned | ⟨stage, hstage⟩
  · have hlt := (List.getElem?_eq_some_iff.mp hreturned).1
    exact .inl ((List.getElem?_append_left hlt).trans hreturned)
  · have hlt := (List.getElem?_eq_some_iff.mp hstage).1
    exact .inr ⟨stage, (List.getElem?_append_left hlt).trans hstage⟩

theorem Step.exchanged {world next : World} {action : Action} {call : Nat}
    (h : Step world action next) (hexchanged : Exchanged call world) : Exchanged call next := by
  cases h with
  | call kind => exact hexchanged.appended
  | read reading h => exact hexchanged.moved h Stage.noConfusion
  | judge h _ => exact hexchanged.moved h Stage.noConfusion
  | fetch h => exact hexchanged.moved h Stage.noConfusion
  | exchange h _ _ => exact hexchanged.moved h Stage.noConfusion
  | miss h _ => exact hexchanged.moved h Stage.noConfusion
  | refuse h _ => exact hexchanged.moved h Stage.noConfusion
  | stamp h => exact hexchanged.moved h Stage.noConfusion

theorem Step.exchanges {world next : World} {call : Nat} (h : Step world (.exchange call) next) :
    Exchanged call next := by
  cases h with
  | @exchange _ now seen balance kind stale h _ _ =>
    have hlt := (List.getElem?_eq_some_iff.mp h).1
    cases kind with
    | takeRetry => exact .inl (List.getElem?_set_self hlt)
    | firstAttempt => exact .inr ⟨_, List.getElem?_set_self hlt⟩

theorem refused_exchanged_nothing {call : Nat} (run : Run Step middle trace final)
    (h : final.calls[call]? = some ⟨.takeRetry, .returned false⟩) :
    ∀ taken ∈ trace, taken.2 ≠ .exchange call := by
  intro taken hmem hexchange
  have hexchanged : Exchanged call final :=
    @Run.persists _ _ _ _ _ _ (fun _ => True) (Exchanged call)
      (fun _ action => action = .exchange call) run trivial (fun _ _ _ _ _ => trivial)
      (fun _ _ _ _ hbad hstep => (hbad ▸ hstep).exchanges)
      (fun _ _ _ _ hkept hstep => hstep.exchanged hkept) ⟨taken, hmem, hexchange⟩
  rcases hexchanged with hreturned | ⟨stage, hstage⟩
  · rw [h] at hreturned
    cases hreturned
  · rw [h] at hstage
    cases hstage

end Runs

end LogicalWorks.Retry
