import LogicalWorks.Lib.Run
import LogicalWorks.Token.Caveat

/-! The retry budget of a run or of a host, one atomic access at a time: any number of calls of
`first_attempt` and `take_retry`, each a load, a compare and exchange loop and a stamp. -/
namespace LogicalWorks.Retry
open Token (Duration)

def retryReserve : Nat := 10

def retryRatioMilli : Nat := 200

def milli : Nat := 1000

def retryReserveMilli : Nat := retryReserve * milli

def retryEarnedCapMilli : Nat := retryReserveMilli

def retryCeilingMilli : Nat := retryReserveMilli + retryEarnedCapMilli

def retryTtlNanos : Nat := 10000000000

def u64Max : Nat := 18446744073709551615

def saturatingAdd (left right : Nat) : Nat := min (left + right) u64Max

def saturatingMul (left right : Nat) : Nat := min (left * right) u64Max

def checkedSub (left right : Nat) : Option Nat := if right ≤ left then some (left - right) else none

def durationToNanos (span : Duration) : Nat :=
  saturatingAdd (saturatingMul span.asSecs 1000000000) span.subsecNanos

structure Window where
  earnedAt : Nat
  deriving DecidableEq, Repr

structure Policy where
  retries : Nat
  window : Option Window
  deriving DecidableEq, Repr

inductive Kind where
  | firstAttempt
  | takeRetry
  deriving DecidableEq, Repr

def clamp (stale : Bool) (held : Nat) : Nat := if stale then min held retryReserveMilli else held

def isStale (now stamp : Nat) : Bool := retryTtlNanos < now - stamp

namespace Policy

def forThisMachine : Policy := ⟨retryReserveMilli, none⟩

def forThisHost : Policy := ⟨retryReserveMilli, some ⟨0⟩⟩

def update (policy : Policy) (kind : Kind) (stale : Bool) (held : Nat) : Option Nat :=
  match kind, policy.window with
  | .firstAttempt, some _ =>
    some (min (saturatingAdd (clamp stale held) retryRatioMilli) retryCeilingMilli)
  | .firstAttempt, none => some (saturatingAdd held retryRatioMilli)
  | .takeRetry, some _ => checkedSub (clamp stale held) milli
  | .takeRetry, none => checkedSub held milli

def stamp (policy : Policy) (now : Nat) : Policy :=
  { policy with window := policy.window.map fun window => ⟨max window.earnedAt now⟩ }

end Policy

/-- What a call has before it: the clock, the stamp, the balance, its exchange, and for a first
attempt on a window the stamping. -/
inductive Stage where
  | entered
  | clocked (now : Nat)
  | judged (now : Nat) (stale : Bool)
  | trying (now : Nat) (stale : Bool) (seen : Nat)
  | stamping (now : Nat)
  | returned (granted : Bool)
  deriving DecidableEq, Repr

structure Call where
  kind : Kind
  stage : Stage
  deriving DecidableEq, Repr

namespace Policy

/-- A call on a budget without a window goes straight to the balance. -/
def entry (policy : Policy) : Stage :=
  match policy.window with
  | some _ => .entered
  | none => .judged 0 false

def settled (policy : Policy) (kind : Kind) (now : Nat) : Stage :=
  match kind, policy.window with
  | .firstAttempt, some _ => .stamping now
  | .firstAttempt, none => .returned false
  | .takeRetry, _ => .returned true

end Policy

structure World where
  policy : Policy
  calls : List Call
  deriving DecidableEq, Repr

inductive Action where
  | call (kind : Kind)
  | read (call : Nat) (reading : Duration)
  | judge (call : Nat)
  | fetch (call : Nat)
  | exchange (call : Nat)
  | miss (call : Nat)
  | refuse (call : Nat)
  | stamp (call : Nat)
  deriving DecidableEq

namespace World

def start (policy : Policy) : World := ⟨policy, []⟩

def advance (world : World) (call : Nat) (kind : Kind) (stage : Stage) : World :=
  { world with calls := world.calls.set call ⟨kind, stage⟩ }

def granted (world : World) : Nat :=
  world.calls.countP fun call => call.kind = .takeRetry && call.stage = .returned true

def firsts (world : World) : Nat := world.calls.countP fun call => call.kind = .firstAttempt

end World

inductive Step (world : World) : Action → World → Prop where
  | call (kind : Kind) :
      Step world (.call kind)
        { world with calls := world.calls ++ [⟨kind, world.policy.entry⟩] }
  | read {call : Nat} {kind : Kind} (reading : Duration)
      (h : world.calls[call]? = some ⟨kind, .entered⟩) :
      Step world (.read call reading) (world.advance call kind (.clocked (durationToNanos reading)))
  | judge {call now : Nat} {kind : Kind} {window : Window}
      (h : world.calls[call]? = some ⟨kind, .clocked now⟩) (hw : world.policy.window = some window) :
      Step world (.judge call) (world.advance call kind (.judged now (isStale now window.earnedAt)))
  | fetch {call now : Nat} {kind : Kind} {stale : Bool}
      (h : world.calls[call]? = some ⟨kind, .judged now stale⟩) :
      Step world (.fetch call) (world.advance call kind (.trying now stale world.policy.retries))
  | exchange {call now seen next : Nat} {kind : Kind} {stale : Bool}
      (h : world.calls[call]? = some ⟨kind, .trying now stale seen⟩)
      (hnext : world.policy.update kind stale seen = some next)
      (hsame : world.policy.retries = seen) :
      Step world (.exchange call)
        { policy := { world.policy with retries := next }
          calls := world.calls.set call ⟨kind, world.policy.settled kind now⟩ }
  /-- A weak exchange may fail on the value it expects too. -/
  | miss {call now seen next : Nat} {kind : Kind} {stale : Bool}
      (h : world.calls[call]? = some ⟨kind, .trying now stale seen⟩)
      (hnext : world.policy.update kind stale seen = some next) :
      Step world (.miss call) (world.advance call kind (.trying now stale world.policy.retries))
  | refuse {call now seen : Nat} {kind : Kind} {stale : Bool}
      (h : world.calls[call]? = some ⟨kind, .trying now stale seen⟩)
      (hnone : world.policy.update kind stale seen = none) :
      Step world (.refuse call) (world.advance call kind (.returned false))
  | stamp {call now : Nat} {kind : Kind} (h : world.calls[call]? = some ⟨kind, .stamping now⟩) :
      Step world (.stamp call)
        { policy := world.policy.stamp now
          calls := world.calls.set call ⟨kind, .returned false⟩ }

def Earns (world : World) (action : Action) : Prop :=
  ∃ call stage, action = .exchange call ∧ world.calls[call]? = some ⟨.firstAttempt, stage⟩

/-! Calls taken one after another, each with its clock's reading. -/
namespace Policy

def staleAt (policy : Policy) (now : Nat) : Bool :=
  match policy.window with
  | some window => isStale now window.earnedAt
  | none => false

def firstAttempt (policy : Policy) (reading : Duration) : Policy :=
  let now := durationToNanos reading
  let earned : Policy :=
    match policy.update .firstAttempt (policy.staleAt now) policy.retries with
    | some next => { policy with retries := next }
    | none => policy
  earned.stamp now

def takeRetry (policy : Policy) (reading : Duration) : Bool × Policy :=
  match policy.update .takeRetry (policy.staleAt (durationToNanos reading)) policy.retries with
  | some next => (true, { policy with retries := next })
  | none => (false, policy)

end Policy

end LogicalWorks.Retry
