import LogicalWorks.Lib.Index
import LogicalWorks.Lib.Table
import LogicalWorks.Lib.Checks
import Mathlib.Algebra.Order.Ring.Nat
import Mathlib.Order.Lattice

/-! Deficit round robin over per-tenant queues: the policy, what a tenant retains, and the decisions
of the round.  The pool is what it answers at each arrival. -/
namespace LogicalWorks.Fair

variable {τ W P : Type} [DecidableEq τ]

def u32Max : Nat := 4294967295

def u64Max : Nat := 18446744073709551615

def maxQueuePerTenant : Nat := 65536

def maxTenantWeight : Nat := 1000

def maxTotalQueue : Nat := 65536

def maxWeightedTenants : Nat := 5000

inductive TenancyError where
  | tooManyWeightedTenants (limit : Nat)
  | weightTooHigh (weight limit : Nat)
  deriving DecidableEq, Repr

structure TenancyPolicy (τ : Type) [DecidableEq τ] where
  perTenantLimit : Nat
  queuePerTenant : Nat
  queueTotal : Nat
  weights : Table τ Nat
  limit_pos : 0 < perTenantLimit
  weight_pos : ∀ tenant weight, weights.get tenant = some weight → 0 < weight
  weight_le : ∀ tenant weight, weights.get tenant = some weight → weight ≤ maxTenantWeight

namespace TenancyPolicy

def new (perTenantLimit queuePerTenant : Nat) : TenancyPolicy τ :=
  ⟨max perTenantLimit 1, min queuePerTenant maxQueuePerTenant, maxTotalQueue, .empty, by omega,
    nofun, nofun⟩

def withQueueTotal (policy : TenancyPolicy τ) (queueTotal : Nat) : TenancyPolicy τ :=
  { policy with queueTotal := min queueTotal maxTotalQueue }

def withWeight (policy : TenancyPolicy τ) (tenant : τ) (weight : Nat) (hpos : 0 < weight) :
    Except TenancyError (TenancyPolicy τ) :=
  if hhigh : maxTenantWeight < weight then .error (.weightTooHigh weight maxTenantWeight)
  else if (policy.weights.get tenant).isNone ∧ maxWeightedTenants ≤ policy.weights.size then
    .error (.tooManyWeightedTenants maxWeightedTenants)
  else
    .ok { policy with
      weights := policy.weights.insert tenant weight
      weight_pos := by
        intro asked declared hget
        rw [Table.get_insert] at hget
        split at hget
        · cases hget
          exact hpos
        · exact policy.weight_pos asked declared hget
      weight_le := by
        intro asked declared hget
        rw [Table.get_insert] at hget
        split at hget
        · cases hget
          omega
        · exact policy.weight_le asked declared hget }

def weightOf (policy : TenancyPolicy τ) (tenant : τ) : Nat :=
  match policy.weights.get tenant with
  | some weight => weight
  | none => 1

theorem weightOf_pos (policy : TenancyPolicy τ) (tenant : τ) : 0 < policy.weightOf tenant := by
  unfold weightOf
  cases hget : policy.weights.get tenant with
  | none => simp
  | some weight => exact policy.weight_pos tenant weight hget

theorem weightOf_le (policy : TenancyPolicy τ) (tenant : τ) :
    policy.weightOf tenant ≤ maxTenantWeight := by
  unfold weightOf
  cases hget : policy.weights.get tenant with
  | none => simp [maxTenantWeight]
  | some weight => exact policy.weight_le tenant weight hget

end TenancyPolicy

inductive Arrival (P : Type) where
  | immediate (permit : P)
  | queued
  | refused (limit : Nat)
  | supervisorFull (limit : Nat)
  deriving DecidableEq, Repr

inductive TryArrival (P : Type) where
  | immediate (permit : P)
  | contended
  deriving DecidableEq, Repr

inductive GrantOutcome (τ W P : Type) where
  | granted (tenant : τ) (waiter : W) (permit : P)
  | idle (permit : P)
  deriving DecidableEq, Repr

structure Entry (W : Type) where
  queue : List W
  abandoned : Nat
  inFlight : Nat
  deficit : Nat
  turnOpen : Bool
  onRing : Bool
  deriving DecidableEq, Repr

namespace Entry

def default : Entry W := ⟨[], 0, 0, 0, false, false⟩

def live (entry : Entry W) : Nat := entry.queue.length - entry.abandoned

def isIdle (entry : Entry W) : Bool :=
  entry.queue.isEmpty && entry.inFlight == 0 && !entry.onRing

def push (entry : Entry W) (waiter : W) : Entry W := { entry with queue := entry.queue ++ [waiter] }

def charge (entry : Entry W) : Entry W := { entry with inFlight := entry.inFlight + 1 }

def release (entry : Entry W) : Entry W := { entry with inFlight := entry.inFlight - 1 }

def leave (entry : Entry W) : Entry W :=
  { entry with abandoned := min (entry.abandoned + 1) entry.queue.length }

def rebuild (entry : Entry W) (isLive : W → Bool) : Entry W :=
  { entry with queue := entry.queue.filter isLive, abandoned := 0 }

end Entry

structure DeficitRoundRobin (τ W : Type) [DecidableEq τ] where
  policy : TenancyPolicy τ
  entries : Index τ (Entry W)
  ring : List τ
  retained : Nat
  work : Nat

namespace DeficitRoundRobin

def new (policy : TenancyPolicy τ) : DeficitRoundRobin τ W := ⟨policy, .empty, [], 0, 0⟩

def step (round : DeficitRoundRobin τ W) (steps : Nat) : DeficitRoundRobin τ W :=
  { round with work := min (round.work + steps) u64Max }

def entry (round : DeficitRoundRobin τ W) (tenant : τ) : Entry W :=
  (round.entries.get tenant).getD .default

def place (round : DeficitRoundRobin τ W) (tenant : τ) (entry : Entry W) : DeficitRoundRobin τ W :=
  { round with entries := round.entries.insert tenant entry }

def tidy (round : DeficitRoundRobin τ W) (tenant : τ) (entry : Entry W) : DeficitRoundRobin τ W :=
  if entry.isIdle then { round with entries := round.entries.erase tenant }
  else round.place tenant entry

def inFlightOf (round : DeficitRoundRobin τ W) (tenant : τ) : Nat :=
  match round.entries.get tenant with
  | some entry => entry.inFlight
  | none => 0

def queuedOf (round : DeficitRoundRobin τ W) (tenant : τ) : Nat :=
  match round.entries.get tenant with
  | some entry => entry.live
  | none => 0

def retainedOf (round : DeficitRoundRobin τ W) (tenant : τ) : Nat :=
  match round.entries.get tenant with
  | some entry => entry.queue.length
  | none => 0

def retainedTotal (round : DeficitRoundRobin τ W) : Nat := round.retained

def arm (round : DeficitRoundRobin τ W) (tenant : τ) (entry : Entry W) :
    DeficitRoundRobin τ W × Entry W :=
  if !entry.onRing && decide (entry.inFlight < round.policy.perTenantLimit) then
    ({ round with ring := round.ring ++ [tenant] }, { entry with onRing := true })
  else (round, entry)

def join (round : DeficitRoundRobin τ W) (tenant : τ) (waiter : W) : DeficitRoundRobin τ W :=
  let armed := { round with retained := round.retained + 1 }.arm tenant
    ((round.entry tenant).push waiter)
  armed.1.place tenant armed.2

def enqueue (round : DeficitRoundRobin τ W) (tenant : τ) (waiter : W) :
    Arrival P × DeficitRoundRobin τ W :=
  let entry := round.entry tenant
  if round.policy.queuePerTenant ≤ entry.live then
    (.refused round.policy.queuePerTenant, round.tidy tenant entry)
  else if round.policy.queueTotal ≤ round.retained then
    (.supervisorFull round.policy.queueTotal, round.tidy tenant entry)
  else (.queued, round.join tenant waiter)

def arrive (round : DeficitRoundRobin τ W) (tenant : τ) (waiter : W) (acquire : Option P) :
    Arrival P × DeficitRoundRobin τ W :=
  let round := round.step 1
  let entry := round.entry tenant
  if round.ring = [] ∧ entry.inFlight < round.policy.perTenantLimit then
    match acquire with
    | some permit =>
      (.immediate permit, round.place tenant entry.charge)
    | none => round.enqueue tenant waiter
  else round.enqueue tenant waiter

def tryArrive (round : DeficitRoundRobin τ W) (tenant : τ) (acquire : Option P) :
    TryArrival P × DeficitRoundRobin τ W :=
  let round := round.step 1
  if round.ring ≠ [] ∨ (round.entries.get tenant).isSome then (.contended, round)
  else
    match acquire with
    | none => (.contended, round)
    | some permit =>
      -- A fresh entry is under its ceiling, which is at least one.
      (.immediate permit, round.place tenant Entry.default.charge)

def noteRelease (round : DeficitRoundRobin τ W) (tenant : τ) : DeficitRoundRobin τ W :=
  let round := round.step 1
  match round.entries.get tenant with
  | none => round
  | some entry =>
    if entry.queue.isEmpty then round.tidy tenant entry.release
    else
      let armed := round.arm tenant entry.release
      armed.1.tidy tenant armed.2

/-- A waiter in a tenant's queue was left by its owner; where those left outnumber the others, the
queue is rebuilt from the others. -/
def noteAbandoned (round : DeficitRoundRobin τ W) (tenant : τ) (isLive : W → Bool) :
    DeficitRoundRobin τ W :=
  let round := round.step 1
  match round.entries.get tenant with
  | none => round
  | some entry =>
    if entry.leave.live < entry.leave.abandoned then
      let freed := entry.queue.length - (entry.leave.rebuild isLive).queue.length
      ({ round with retained := round.retained - freed }.place tenant
        (entry.leave.rebuild isLive)).step entry.queue.length
    else round.place tenant entry.leave

def skip (round : DeficitRoundRobin τ W) (entry : Entry W) (isLive : W → Bool) :
    DeficitRoundRobin τ W × Entry W :=
  let skipped := (entry.queue.takeWhile fun waiter => !isLive waiter).length
  ({ round.step skipped with retained := round.retained - skipped },
    { entry with
      queue := entry.queue.dropWhile fun waiter => !isLive waiter
      abandoned := entry.abandoned - skipped })

/-- Take a tenant with nobody waiting off the head of the ring. -/
def retire (round : DeficitRoundRobin τ W) (front : τ) (rest : List τ) (entry : Entry W) :
    DeficitRoundRobin τ W :=
  { round with ring := rest }.tidy front
    { entry with onRing := false, deficit := 0, turnOpen := false }

def openTurn (round : DeficitRoundRobin τ W) (front : τ) (entry : Entry W) : Entry W :=
  if entry.turnOpen then entry
  else
    { entry with
      deficit := min (entry.deficit + round.policy.weightOf front) u32Max
      turnOpen := true }

/-- Hand the permit to the tenant at the head, `behind` being who waits behind its first waiter. -/
def hand (round : DeficitRoundRobin τ W) (front : τ) (rest : List τ) (entry : Entry W)
    (behind : List W) : DeficitRoundRobin τ W :=
  let opened := round.openTurn front entry
  let round := { round with retained := round.retained - 1 }
  let served := { opened with
    queue := behind
    deficit := opened.deficit - 1
    inFlight := opened.inFlight + 1 }
  if behind = [] ∨ round.policy.perTenantLimit ≤ served.inFlight then
    { round with ring := rest }.tidy front
      { served with turnOpen := false, onRing := false, deficit := 0 }
  else if served.deficit = 0 then
    { round with ring := rest ++ [front] }.place front { served with turnOpen := false }
  else round.place front served

def grantFrom (permit : P) (isLive : W → Bool) :
    List τ → DeficitRoundRobin τ W → GrantOutcome τ W P × DeficitRoundRobin τ W
  | [], round => (.idle permit, round.step 1)
  | front :: rest, round =>
    match (round.step 1).entries.get front with
    | none => grantFrom permit isLive rest { round.step 1 with ring := rest }
    | some entry =>
      let skipped := (round.step 1).skip entry isLive
      match skipped.2.queue with
      | [] => grantFrom permit isLive rest (skipped.1.retire front rest skipped.2)
      | waiter :: behind =>
        (.granted front waiter permit, skipped.1.hand front rest skipped.2 behind)

def grant (round : DeficitRoundRobin τ W) (permit : P) (isLive : W → Bool) :
    GrantOutcome τ W P × DeficitRoundRobin τ W :=
  grantFrom permit isLive round.ring round

end DeficitRoundRobin

end LogicalWorks.Fair
