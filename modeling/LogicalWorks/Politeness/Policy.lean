import LogicalWorks.Ecs.Entry
import LogicalWorks.Session.Value
import LogicalWorks.Lib.Checks
import Mathlib.Order.Lattice

/-! The frontier's vocabulary and the limits it enforces. -/
namespace LogicalWorks.Politeness
open Session (Text)
open Ecs (saturatingAdd)

def u32Max : Nat := 4294967295

def u64Max : Nat := 18446744073709551615

inductive ConstraintKey where
  | host (host : Text)
  | origin (origin : Text)
  | egress (egress : Text)
  deriving DecidableEq, Repr

namespace ConstraintKey

def isServer : ConstraintKey → Bool
  | host _ | origin _ => true
  | egress _ => false

def rank : ConstraintKey → Nat
  | host _ => 0
  | origin _ => 1
  | egress _ => 2

def text : ConstraintKey → Text
  | host text | origin text | egress text => text

end ConstraintKey

inductive Resolved where
  | origin (origin : Text)
  | failed
  | doesNotExist
  deriving DecidableEq, Repr

inductive RulesState where
  | notFetched
  | allowed
  | disallowed (rule : Text)
  | noRules
  | unreachable (since : Nat)
  deriving DecidableEq, Repr

/-- The rules as they stand at an instant: a file out of reach for the whole grace forbids nothing. -/
def RulesState.effective (rules : RulesState) (at_ grace : Nat) : RulesState :=
  match rules with
  | .unreachable since => if grace ≤ at_ - since then .noRules else .unreachable since
  | unchanged => unchanged

inductive DeferralKind where
  | retryAfter
  | rateLimited
  | originPolicyUnreachable
  | rulesNotFetched
  | originUnmapped
  | resolutionFailed
  deriving DecidableEq, Repr

namespace DeferralKind

def rank : DeferralKind → Nat
  | retryAfter => 0
  | rateLimited => 1
  | originPolicyUnreachable => 2
  | rulesNotFetched => 3
  | originUnmapped => 4
  | resolutionFailed => 5

def needsPrerequisite : DeferralKind → Bool
  | originUnmapped | resolutionFailed | rulesNotFetched | originPolicyUnreachable => true
  | retryAfter | rateLimited => false

end DeferralKind

/-- Why a request was dropped for good. -/
inductive RejectKind where
  | disallowed (rule : Text)
  | doesNotExist
  | exhausted
  deriving DecidableEq, Repr

inductive Outcome where
  | success
  | cacheHit
  | failure
  deriving DecidableEq, Repr

inductive CompletionError where
  | foreignPermit
  | unknownPermit
  deriving DecidableEq, Repr

inductive PolitenessError where
  | zeroWindow
  | invertedWindow (minWindow maxWindow : Nat)
  | invalidEgressWindow (egressWindow maxWindow : Nat)
  | invalidDecreasePercent (decreasePercent : Nat)
  deriving DecidableEq, Repr

structure PolitenessPolicy where
  minWindow : Nat
  maxWindow : Nat
  egressWindow : Nat
  increaseAfter : Nat
  decreasePercent : Nat
  unreachableGrace : Nat
  retryAfterFailure : Nat
  min_pos : 0 < minWindow
  min_le_max : minWindow ≤ maxWindow
  egress_pos : 0 < egressWindow
  egress_le_max : egressWindow ≤ maxWindow
  max_le : maxWindow ≤ u32Max

namespace PolitenessPolicy

theorem four_le_u32Max : 4 ≤ u32Max := by
  unfold u32Max
  omega

def default : PolitenessPolicy :=
  ⟨1, 4, 4, 8, 70, 2592000 * 1000000000, 60 * 1000000000, Nat.succ_pos 0, Nat.le_add_left 1 3,
    Nat.succ_pos 3, Nat.le_refl 4, four_le_u32Max⟩

def new (minWindow maxWindow egressWindow increaseAfter decreasePercent : Nat)
    (hmax : maxWindow ≤ u32Max) : Except PolitenessError PolitenessPolicy :=
  if hmin : minWindow = 0 then .error .zeroWindow
  else if hinverted : maxWindow < minWindow then .error (.invertedWindow minWindow maxWindow)
  else if hegress : egressWindow = 0 ∨ maxWindow < egressWindow then
    .error (.invalidEgressWindow egressWindow maxWindow)
  else if decreasePercent = 0 ∨ 100 < decreasePercent then
    .error (.invalidDecreasePercent decreasePercent)
  else
    .ok ⟨minWindow, maxWindow, egressWindow, increaseAfter, decreasePercent,
      default.unreachableGrace, default.retryAfterFailure, by omega, by omega, by omega, by omega,
      hmax⟩

def clamp (policy : PolitenessPolicy) (window : Nat) : Nat :=
  max policy.minWindow (min window policy.maxWindow)

def decrease (policy : PolitenessPolicy) (window : Nat) : Nat :=
  policy.clamp (min (window * policy.decreasePercent) u32Max / 100)

def increase (policy : PolitenessPolicy) (window : Nat) : Nat :=
  policy.clamp (min (window + 1) u32Max)

def Allows (policy : PolitenessPolicy) (window : Nat) : Prop :=
  policy.minWindow ≤ window ∧ window ≤ policy.maxWindow

theorem allows_clamp (policy : PolitenessPolicy) (window : Nat) :
    policy.Allows (policy.clamp window) := by
  have hle := policy.min_le_max
  simp only [Allows, clamp]
  omega

theorem allows_min (policy : PolitenessPolicy) : policy.Allows policy.minWindow :=
  ⟨Nat.le_refl _, policy.min_le_max⟩

end PolitenessPolicy

def RulesState.permits : RulesState → Bool
  | allowed | noRules => true
  | notFetched | disallowed _ | unreachable _ => false

theorem RulesState.permits_mono {rules : RulesState} {early late grace : Nat} (h : early ≤ late)
    (hpermits : (rules.effective early grace).permits = true) :
    (rules.effective late grace).permits = true := by
  cases rules with
  | unreachable since =>
    simp only [effective] at *
    split at hpermits
    · rw [if_pos (by omega)]
      rfl
    · cases hpermits
  | notFetched => exact hpermits
  | allowed => rfl
  | disallowed rule => exact hpermits
  | noRules => rfl

end LogicalWorks.Politeness
