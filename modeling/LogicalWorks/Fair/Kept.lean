import LogicalWorks.Fair.Round
import Mathlib.Algebra.BigOperators.Group.Finset.Basic
import Mathlib.Algebra.Order.BigOperators.Group.Finset

/-! What every decision of the round keeps: the counts of each tenant are what its queue holds, and
the ring holds exactly the tenants that could be served. -/
namespace LogicalWorks.Fair
open DeficitRoundRobin

variable {τ W P : Type} [DecidableEq τ]

structure Sound (policy : TenancyPolicy τ) (live : W → Bool) (ring : List τ) (tenant : τ)
    (entry : Entry W) : Prop where
  abandoned : entry.abandoned = (entry.queue.filter fun waiter => !live waiter).length
  queued : (entry.queue.filter live).length ≤ policy.queuePerTenant
  abandoned_le : entry.abandoned ≤ policy.queuePerTenant
  inFlight_le : entry.inFlight ≤ policy.perTenantLimit
  onRing : entry.onRing = true ↔ tenant ∈ ring
  armed : entry.onRing = true → entry.inFlight < policy.perTenantLimit
  closed : entry.turnOpen = false → entry.deficit = 0
  opened : entry.turnOpen = true → ring.head? = some tenant ∧ 0 < entry.deficit ∧
    entry.deficit ≤ policy.weightOf tenant

namespace Sound

variable {policy : TenancyPolicy τ} {live : W → Bool} {ring : List τ} {tenant : τ} {entry : Entry W}

theorem length_queue (h : Sound policy live ring tenant entry) :
    entry.queue.length = (entry.queue.filter live).length + entry.abandoned := by
  rw [h.abandoned]
  exact (List.length_eq_length_filter_add live).trans (by simp)

theorem live_eq (h : Sound policy live ring tenant entry) :
    entry.live = (entry.queue.filter live).length := by
  have hlength := h.length_queue
  unfold Entry.live
  omega

theorem turnOpen_eq_false (h : Sound policy live ring tenant entry)
    (hhead : ring.head? ≠ some tenant) : entry.turnOpen = false := by
  rw [← Bool.not_eq_true]
  exact fun hopen => hhead (h.opened hopen).1

theorem eq_default (h : Sound policy live ring tenant entry) (hidle : entry.isIdle = true) :
    entry = .default := by
  obtain ⟨queue, abandoned, inFlight, deficit, turnOpen, onRing⟩ := entry
  simp only [Entry.isIdle, Bool.and_eq_true, List.isEmpty_iff, beq_iff_eq, Bool.not_eq_true'] at hidle
  obtain ⟨⟨rfl, rfl⟩, rfl⟩ := hidle
  have habandoned := h.abandoned
  have hclosed : turnOpen = false := by
    refine h.turnOpen_eq_false fun hhead => ?_
    have honring := h.onRing.mpr (List.mem_of_mem_head? hhead)
    cases honring
  subst hclosed
  have hdeficit := h.closed rfl
  simp only [List.filter_nil, List.length_nil] at habandoned hdeficit
  subst habandoned hdeficit
  rfl

theorem move (h : Sound policy live ring tenant entry) {live' : W → Bool} {ring' : List τ}
    (hmem : tenant ∈ ring' ↔ tenant ∈ ring)
    (hhead : ring.head? = some tenant → ring'.head? = some tenant)
    (hlive : ∀ waiter ∈ entry.queue, live' waiter = live waiter) :
    Sound policy live' ring' tenant entry where
  abandoned := by
    rw [h.abandoned]
    congr 1
    apply List.filter_congr
    intro waiter hin
    rw [hlive waiter hin]
  queued := by
    rw [List.filter_congr hlive]
    exact h.queued
  abandoned_le := h.abandoned_le
  inFlight_le := h.inFlight_le
  onRing := h.onRing.trans hmem.symm
  armed := h.armed
  closed := h.closed
  opened := fun hopen => ⟨hhead (h.opened hopen).1, (h.opened hopen).2⟩

theorem default (policy : TenancyPolicy τ) (live : W → Bool) {ring : List τ} {tenant : τ}
    (hmem : tenant ∉ ring) : Sound policy live ring tenant .default where
  abandoned := rfl
  queued := Nat.zero_le _
  abandoned_le := Nat.zero_le _
  inFlight_le := Nat.zero_le _
  onRing := ⟨nofun, fun hin => absurd hin hmem⟩
  armed := nofun
  closed := fun _ => rfl
  opened := nofun

end Sound

namespace DeficitRoundRobin

variable {round : DeficitRoundRobin τ W} {tenant other : τ} {entry : Entry W}

theorem entry_place (round : DeficitRoundRobin τ W) (tenant other : τ) (entry : Entry W) :
    (round.place tenant entry).entry other = if other = tenant then entry else round.entry other := by
  unfold place DeficitRoundRobin.entry
  simp only [Index.get_insert]
  split <;> rfl

theorem entry_tidy (round : DeficitRoundRobin τ W) (tenant other : τ) {entry : Entry W}
    (h : entry.isIdle = true → entry = .default) :
    (round.tidy tenant entry).entry other = if other = tenant then entry else round.entry other := by
  unfold tidy
  split
  · rename_i hidle
    rw [h hidle]
    unfold DeficitRoundRobin.entry
    simp only [Index.get_erase]
    split <;> rfl
  · exact entry_place _ _ _ _

@[simp] theorem tidy_policy : (round.tidy tenant entry).policy = round.policy := by
  unfold tidy
  split <;> rfl

@[simp] theorem tidy_ring : (round.tidy tenant entry).ring = round.ring := by
  unfold tidy
  split <;> rfl

@[simp] theorem tidy_retained : (round.tidy tenant entry).retained = round.retained := by
  unfold tidy
  split <;> rfl

@[simp] theorem tidy_work : (round.tidy tenant entry).work = round.work := by
  unfold tidy
  split <;> rfl

theorem inFlightOf_eq (round : DeficitRoundRobin τ W) (tenant : τ) :
    round.inFlightOf tenant = (round.entry tenant).inFlight := by
  unfold inFlightOf DeficitRoundRobin.entry
  cases round.entries.get tenant <;> rfl

theorem queuedOf_eq (round : DeficitRoundRobin τ W) (tenant : τ) :
    round.queuedOf tenant = (round.entry tenant).live := by
  unfold queuedOf DeficitRoundRobin.entry
  cases round.entries.get tenant <;> rfl

theorem retainedOf_eq (round : DeficitRoundRobin τ W) (tenant : τ) :
    round.retainedOf tenant = (round.entry tenant).queue.length := by
  unfold retainedOf DeficitRoundRobin.entry
  cases round.entries.get tenant <;> rfl

def total (round : DeficitRoundRobin τ W) (tenants : Finset τ) (measure : Entry W → Nat) : Nat :=
  ∑ tenant ∈ tenants, measure (round.entry tenant)

def potential (round : DeficitRoundRobin τ W) (tenants : Finset τ) : Nat :=
  round.work + round.ring.length + 2 * round.total tenants Entry.abandoned

theorem total_exchange {next : DeficitRoundRobin τ W} {tenants : Finset τ}
    (houtside : ∀ other, other ∉ tenants → round.entry other = .default)
    (hentry : ∀ other, next.entry other = if other = tenant then entry else round.entry other)
    (measure : Entry W → Nat) (hdefault : measure .default = 0) :
    next.total (insert tenant tenants) measure + measure (round.entry tenant) =
      round.total tenants measure + measure entry := by
  have hwhole : round.total (insert tenant tenants) measure = round.total tenants measure := by
    by_cases hmem : tenant ∈ tenants
    · rw [Finset.insert_eq_of_mem hmem]
    · unfold total
      rw [Finset.sum_insert hmem, houtside tenant hmem, hdefault, Nat.zero_add]
  have hmem := Finset.mem_insert_self tenant tenants
  have hsame : ∑ other ∈ (insert tenant tenants).erase tenant, measure (next.entry other) =
      ∑ other ∈ (insert tenant tenants).erase tenant, measure (round.entry other) := by
    refine Finset.sum_congr rfl fun other hother => ?_
    rw [hentry, if_neg (Finset.ne_of_mem_erase hother)]
  have hnext := Finset.add_sum_erase _ (fun other => measure (next.entry other)) hmem
  have hround := Finset.add_sum_erase _ (fun other => measure (round.entry other)) hmem
  have hself : next.entry tenant = entry := by rw [hentry, if_pos rfl]
  rw [← hwhole]
  unfold total
  simp only [hself] at hnext
  omega

end DeficitRoundRobin

structure Kept (live : W → Bool) (tenants : Finset τ) (round : DeficitRoundRobin τ W) : Prop where
  sound : ∀ tenant, Sound round.policy live round.ring tenant (round.entry tenant)
  servable : ∀ tenant, (round.entry tenant).queue ≠ [] →
    (round.entry tenant).inFlight < round.policy.perTenantLimit → tenant ∈ round.ring
  distinct : round.ring.Nodup
  outside : ∀ tenant, tenant ∉ tenants → round.entry tenant = .default
  retained : round.retained = round.total tenants fun entry => entry.queue.length
  retained_le : round.retained ≤ round.policy.queueTotal

namespace Kept

variable {live : W → Bool} {tenants : Finset τ} {round : DeficitRoundRobin τ W} {tenant : τ}

theorem new (policy : TenancyPolicy τ) (live : W → Bool) : Kept live ∅ (new policy) where
  sound := fun _ => .default policy live List.not_mem_nil
  servable := fun _ hqueue => absurd rfl hqueue
  distinct := List.nodup_nil
  outside := fun _ _ => rfl
  retained := rfl
  retained_le := Nat.zero_le _

/-- One tenant's entry is exchanged, and to the others the ring and the liveness stay what they
were. -/
theorem exchange (h : Kept live tenants round) {next : DeficitRoundRobin τ W} {entry : Entry W}
    {live' : W → Bool} (hpolicy : next.policy = round.policy)
    (hentry : ∀ other, next.entry other = if other = tenant then entry else round.entry other)
    (hdistinct : next.ring.Nodup) (hsound : Sound round.policy live' next.ring tenant entry)
    (hservable : entry.queue ≠ [] → entry.inFlight < round.policy.perTenantLimit →
      tenant ∈ next.ring)
    (hothers : ∀ other, other ≠ tenant →
      Sound round.policy live' next.ring other (round.entry other) ∧
        (other ∈ round.ring → other ∈ next.ring))
    (hretained : next.retained + (round.entry tenant).queue.length =
      round.retained + entry.queue.length)
    (hretained_le : next.retained ≤ round.policy.queueTotal) :
    Kept live' (insert tenant tenants) next where
  sound := by
    intro other
    rw [hpolicy, hentry]
    split
    · rename_i heq
      rw [heq]
      exact hsound
    · rename_i hne
      exact (hothers other hne).1
  servable := by
    intro other
    rw [hpolicy, hentry]
    split
    · rename_i heq
      rw [heq]
      exact hservable
    · rename_i hne
      exact fun hqueue hlt => (hothers other hne).2 (h.servable other hqueue hlt)
  distinct := hdistinct
  outside := by
    intro other hother
    rw [Finset.mem_insert, not_or] at hother
    rw [hentry, if_neg hother.1, h.outside other hother.2]
  retained := by
    have hsum := total_exchange h.outside hentry (fun entry => entry.queue.length) rfl
    have hbefore := h.retained
    omega
  retained_le := by
    rw [hpolicy]
    exact hretained_le

end Kept

end LogicalWorks.Fair
