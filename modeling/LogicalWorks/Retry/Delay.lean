import LogicalWorks.Lib.Machine
import LogicalWorks.Token.Caveat
import Mathlib.Algebra.Order.Ring.Nat

/-! How long to wait before a retry: a base doubled with each attempt, a cap, and an entropy word
that shortens what they give. -/
namespace LogicalWorks.Retry
open Token (Duration)

structure Machine (m : Type → Type) extends Arithmetic m where
  clampedSpan : m Duration
  clampedNanos : m Int
  stopped : m Duration

structure RetryPolicy where
  maxAttempts : UInt32
  baseDelay : Duration
  maxDelay : Duration
  deadline : Duration
  deriving DecidableEq

def u64Top : Int := 18446744073709551615

def u128Top : Int := 340282366920938463463374607431768211455

def nanosPerSecond : Int := 1000000000

def maxSubsecondNanos : Int := 999999999

def longestSpan : Duration := ⟨(2 ^ 64 - 1) * 10 ^ 9 + 999999999, Nat.le_refl _⟩

section Delay

variable {m : Type → Type} [Monad m] (machine : Machine m)

def cappedBackoffNanos (baseNanos capNanos : Int) (attempt : Nat) : m Int :=
  let baseNanos := min baseNanos capNanos
  if baseNanos = 0 ∨ baseNanos = capNanos then pure baseNanos
  else if 128 ≤ attempt then pure capNanos
  else if capNanos / 2 ^ attempt < baseNanos then pure capNanos
  else machine.narrow (u128Top + 1) (baseNanos * 2 ^ attempt)

def durationNew (seconds nanos : Int) : m Duration :=
  if h : (seconds * nanosPerSecond + nanos).toNat ≤ (2 ^ 64 - 1) * 10 ^ 9 + 999999999 then
    pure ⟨(seconds * nanosPerSecond + nanos).toNat, h⟩
  else machine.stopped

def durationFromNanos (nanos : Int) : m Duration :=
  let wholeSeconds := nanos / nanosPerSecond
  if wholeSeconds ≤ u64Top then do
    let remainder := nanos % nanosPerSecond
    let subsecondNanos ← if remainder ≤ u32Max then pure remainder else machine.clampedNanos
    durationNew machine wholeSeconds subsecondNanos
  else machine.clampedSpan

def RetryPolicy.delay (policy : RetryPolicy) (attempt : UInt32) (jitterEntropy : UInt64) :
    m Duration := do
  let backoffNanos ← cappedBackoffNanos machine policy.baseDelay.nanos policy.maxDelay.nanos
    attempt.toNat
  if backoffNanos = 0 then pure ⟨0, Nat.zero_le _⟩
  else
    let jitterWindow ← machine.within 0 u128Top (backoffNanos + 1)
    if jitterWindow = 0 then pure ⟨0, Nat.zero_le _⟩
    else
      let jitter ← machine.within 0 u128Top (backoffNanos - jitterEntropy.toNat % jitterWindow)
      durationFromNanos machine jitter

end Delay

/-- Numbers stop at their bounds, shifts drop bits, and a span that cannot be made panics. -/
def shipped : Machine Option where
  within low high value := some (max low (min high value))
  narrow size value := some (value % size)
  clampedSpan := some longestSpan
  clampedNanos := some maxSubsecondNanos
  stopped := none

def unclamped : Machine Option where
  toArithmetic := Arithmetic.checked
  clampedSpan := none
  clampedNanos := none
  stopped := none

def RetryPolicy.backoff (policy : RetryPolicy) (attempt : UInt32) : Nat :=
  min (policy.baseDelay.nanos * 2 ^ attempt.toNat) policy.maxDelay.nanos

def RetryPolicy.jittered (policy : RetryPolicy) (attempt : UInt32) (entropy : UInt64) : Duration where
  nanos := policy.backoff attempt - entropy.toNat % (policy.backoff attempt + 1)
  bounded := Nat.le_trans (Nat.sub_le _ _)
    (Nat.le_trans (Nat.min_le_right _ _) policy.maxDelay.bounded)

section Exact

variable {m : Type → Type} [Monad m] {machine : Machine m}

theorem cappedBackoffNanos_eq (hmachine : machine.toArithmetic.Faithful) (base cap attempt : Nat)
    (hcap : (cap : Int) ≤ u128Top) :
    cappedBackoffNanos machine base cap attempt =
      pure ((min (base * 2 ^ attempt) cap : Nat) : Int) := by
  have hpow : 0 < 2 ^ attempt := Nat.two_pow_pos attempt
  have hgrows : base ≤ base * 2 ^ attempt := Nat.le_mul_of_pos_right base hpow
  unfold cappedBackoffNanos
  rcases Nat.lt_or_ge base cap with hless | hge
  · rw [show min (base : Int) cap = base by omega]
    rcases Nat.eq_zero_or_pos base with rfl | hpos
    · rw [if_pos (.inl rfl), Nat.zero_mul, Nat.zero_min]
    · rw [if_neg (by omega)]
      by_cases hlong : 128 ≤ attempt
      · have hwide : 2 ^ 128 ≤ 2 ^ attempt := Nat.pow_le_pow_right Nat.two_pos hlong
        have hproduct : 2 ^ attempt ≤ base * 2 ^ attempt := Nat.le_mul_of_pos_left _ hpos
        rw [if_pos hlong, Nat.min_eq_right]
        unfold u128Top at hcap
        omega
      · have hfloor : ((cap : Int) / 2 ^ attempt < base) ↔ cap < base * 2 ^ attempt := by
          rw [← Nat.div_lt_iff_lt_mul hpow]
          exact_mod_cast Iff.rfl
        rw [if_neg hlong]
        by_cases hpast : cap < base * 2 ^ attempt
        · rw [if_pos (hfloor.mpr hpast), Nat.min_eq_right (Nat.le_of_lt hpast)]
        · rw [if_neg fun h => hpast (hfloor.mp h), Nat.min_eq_left (Nat.not_lt.mp hpast)]
          have hcast : (base : Int) * 2 ^ attempt = ((base * 2 ^ attempt : Nat) : Int) := by
            push_cast
            rfl
          rw [hcast]
          refine hmachine.narrow _ _ ⟨Int.natCast_nonneg _, ?_⟩
          omega
  · rw [show min (base : Int) cap = cap by omega, if_pos (.inr rfl), Nat.min_eq_right (by omega)]

variable [LawfulMonad m]

theorem durationFromNanos_eq (span : Duration) :
    durationFromNanos machine span.nanos = pure span := by
  have hbounded := span.bounded
  unfold durationFromNanos
  have hseconds : (span.nanos : Int) / nanosPerSecond ≤ u64Top := by
    unfold nanosPerSecond u64Top
    omega
  have hremainder : (span.nanos : Int) % nanosPerSecond ≤ u32Max := by
    unfold nanosPerSecond u32Max
    omega
  rw [if_pos hseconds]
  simp only [if_pos hremainder, pure_bind]
  have hwhole : (span.nanos : Int) / nanosPerSecond * nanosPerSecond +
      (span.nanos : Int) % nanosPerSecond = span.nanos := Int.ediv_mul_add_emod _ _
  unfold durationNew
  simp only [hwhole, Int.toNat_natCast]
  rw [dif_pos hbounded]

theorem delay_eq (hmachine : machine.toArithmetic.Faithful) (policy : RetryPolicy)
    (attempt : UInt32) (entropy : UInt64) :
    policy.delay machine attempt entropy = pure (policy.jittered attempt entropy) := by
  have hbounded := policy.maxDelay.bounded
  have hcap : (policy.maxDelay.nanos : Int) ≤ u128Top := by
    unfold u128Top
    omega
  have hle : policy.backoff attempt ≤ policy.maxDelay.nanos := Nat.min_le_right _ _
  have hcapped : cappedBackoffNanos machine policy.baseDelay.nanos policy.maxDelay.nanos
      attempt.toNat = pure (policy.backoff attempt : Int) :=
    cappedBackoffNanos_eq hmachine _ _ _ hcap
  unfold RetryPolicy.delay
  rw [hcapped, pure_bind]
  by_cases hzero : policy.backoff attempt = 0
  · rw [if_pos (by omega)]
    congr 1
    rw [RetryPolicy.jittered, Duration.mk.injEq, hzero, Nat.zero_sub]
  · have hmod : entropy.toNat % (policy.backoff attempt + 1) ≤ policy.backoff attempt :=
      Nat.le_of_lt_succ (Nat.mod_lt _ (Nat.succ_pos _))
    have hmodInt : (entropy.toNat : Int) % ((policy.backoff attempt : Int) + 1) ≤
        policy.backoff attempt := by
      exact_mod_cast hmod
    have hmodPos : 0 ≤ (entropy.toNat : Int) % ((policy.backoff attempt : Int) + 1) :=
      Int.emod_nonneg _ (by omega)
    rw [if_neg (by omega), hmachine.within _ _ _ (by unfold u128Top; omega), pure_bind,
      if_neg (by omega), hmachine.within _ _ _ (by unfold u128Top; omega), pure_bind]
    have hjitter : (policy.backoff attempt : Int) -
        (entropy.toNat : Int) % ((policy.backoff attempt : Int) + 1) =
          ((policy.jittered attempt entropy).nanos : Int) := by
      rw [RetryPolicy.jittered, Int.natCast_sub hmod]
      push_cast
      rfl
    rw [hjitter, durationFromNanos_eq]

theorem faithful_shipped : shipped.toArithmetic.Faithful where
  within low high value h := by
    show some (max low (min high value)) = some value
    rw [min_eq_right h.2, max_eq_right h.1]
  narrow size value h := congrArg some (Int.emod_eq_of_lt h.1 h.2)

end Exact

/-- The delay is the formula on the shipped machine and reaches no bound of it; it keeps to the cap,
grows with the attempts, and takes every value that a word can give. -/
theorem delay_exact (policy : RetryPolicy) (attempt : UInt32) (entropy : UInt64) :
    policy.delay shipped attempt entropy = some (policy.jittered attempt entropy) ∧
    policy.delay unclamped attempt entropy = some (policy.jittered attempt entropy) ∧
    (policy.jittered attempt entropy).nanos =
      min (policy.baseDelay.nanos * 2 ^ attempt.toNat) policy.maxDelay.nanos -
        entropy.toNat %
          (min (policy.baseDelay.nanos * 2 ^ attempt.toNat) policy.maxDelay.nanos + 1) ∧
    (policy.jittered attempt entropy).nanos ≤ policy.maxDelay.nanos ∧
    (∀ later, attempt ≤ later →
      (policy.jittered attempt 0).nanos ≤ (policy.jittered later 0).nanos) ∧
    (min (policy.baseDelay.nanos * 2 ^ attempt.toNat) policy.maxDelay.nanos < 2 ^ 64 →
      ∀ nanos ≤ min (policy.baseDelay.nanos * 2 ^ attempt.toNat) policy.maxDelay.nanos,
        ∃ word, (policy.jittered attempt word).nanos = nanos) := by
  refine ⟨delay_eq faithful_shipped policy attempt entropy,
    delay_eq Arithmetic.faithful_checked policy attempt entropy, rfl,
    Nat.le_trans (Nat.sub_le _ _) (Nat.min_le_right _ _), fun later hlater => ?_,
    fun hfits nanos hnanos => ?_⟩
  · have hpow : 2 ^ attempt.toNat ≤ 2 ^ later.toNat := Nat.pow_le_pow_right Nat.two_pos hlater
    have hmul := Nat.mul_le_mul_left policy.baseDelay.nanos hpow
    show policy.backoff attempt - 0 % _ ≤ policy.backoff later - 0 % _
    rw [Nat.zero_mod, Nat.zero_mod, Nat.sub_zero, Nat.sub_zero]
    unfold RetryPolicy.backoff
    omega
  · have hbackoff : policy.backoff attempt =
        min (policy.baseDelay.nanos * 2 ^ attempt.toNat) policy.maxDelay.nanos := rfl
    rw [← hbackoff] at hfits hnanos
    refine ⟨UInt64.ofNat (policy.backoff attempt - nanos), ?_⟩
    show policy.backoff attempt - (UInt64.ofNat (policy.backoff attempt - nanos)).toNat %
      (policy.backoff attempt + 1) = nanos
    rw [UInt64.toNat_ofNat_of_lt' (Nat.lt_of_le_of_lt (Nat.sub_le _ _) hfits),
      Nat.mod_eq_of_lt (by omega)]
    exact Nat.sub_sub_self hnanos

end LogicalWorks.Retry
