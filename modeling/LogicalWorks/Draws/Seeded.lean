import Mathlib.Algebra.Order.BigOperators.Group.Finset
import Mathlib.Data.Nat.GCD.Basic
import Mathlib.Order.Interval.Finset.Nat
import Mathlib.Tactic.NormNum.GCD

/-! A seeded stream of words, and draws below a bound that leave no residue more likely than
another. -/
namespace LogicalWorks.Draws

def goldenGamma : UInt64 := 0x9e3779b97f4a7c15

def mix (counter : UInt64) : UInt64 :=
  let mixed := counter
  let mixed := (mixed ^^^ (mixed >>> 30)) * 0xbf58476d1ce4e5b9
  let mixed := (mixed ^^^ (mixed >>> 27)) * 0x94d049bb133111eb
  mixed ^^^ (mixed >>> 31)

def splitmix64 (counter : UInt64) : UInt64 × UInt64 :=
  let counter := counter + goldenGamma
  (mix counter, counter)

inductive DrawError where
  | emptyRange
  | widerThanStream
  deriving DecidableEq, Repr

structure Seeded where
  s0 : UInt64
  s1 : UInt64
  s2 : UInt64
  s3 : UInt64
  deriving DecidableEq, Repr

def rotateLeft (word amount : UInt64) : UInt64 :=
  (word <<< amount) ||| (word >>> (64 - amount))

def fromSeed (seed : UInt64) : Seeded :=
  let (s0, counter) := splitmix64 seed
  let (s1, counter) := splitmix64 counter
  let (s2, counter) := splitmix64 counter
  let (s3, _) := splitmix64 counter
  ⟨s0, s1, s2, s3⟩

namespace Seeded

def nextU64 (stream : Seeded) : UInt64 × Seeded :=
  let out := rotateLeft (stream.s1 * 5) 7 * 9
  let t2 := stream.s2 ^^^ stream.s0
  let t3 := stream.s3 ^^^ stream.s1
  (out, ⟨stream.s0 ^^^ t3, stream.s1 ^^^ t2, t2 ^^^ (stream.s1 <<< 17), rotateLeft t3 45⟩)

/-- The residues that a multiply and a shift give more often than the others. -/
def threshold (bound : UInt64) : UInt64 := (0 - bound) % bound

def accept (bound word : UInt64) : Option UInt64 :=
  let product := word.toNat * bound.toNat % 2 ^ 128
  let low := UInt64.ofNat (product % 2 ^ 64)
  let high := UInt64.ofNat (product / 2 ^ 64)
  if threshold bound ≤ low then some high else none

def drawBelow (bound : UInt64) : Nat → Seeded → Option (UInt64 × Seeded)
  | 0, _ => none
  | fuel + 1, stream =>
    let (word, stream) := stream.nextU64
    match accept bound word with
    | some value => some (value, stream)
    | none => drawBelow bound fuel stream

def below (stream : Seeded) (bound : UInt64) (fuel : Nat) :
    Option (Except DrawError UInt64 × Seeded) :=
  if bound = 0 then some (.error .emptyRange, stream)
  else (drawBelow bound fuel stream).map fun (value, stream) => (.ok value, stream)

def after (stream : Seeded) : Nat → Seeded
  | 0 => stream
  | count + 1 => (stream.after count).nextU64.2

def wordAt (stream : Seeded) (place : Nat) : UInt64 := (stream.after place).nextU64.1

def Zero (stream : Seeded) : Prop :=
  stream.s0 = 0 ∧ stream.s1 = 0 ∧ stream.s2 = 0 ∧ stream.s3 = 0

end Seeded

section States

theorem eq_zero_of_xor_shift {word amount : UInt64} (hamount : 0 < amount.toNat % 64)
    (h : word ^^^ (word >>> amount) = 0) : word = 0 := by
  have hself : word = word >>> amount := UInt64.xor_eq_zero_iff.mp h
  have hnat := congrArg UInt64.toNat hself
  rw [UInt64.toNat_shiftRight, Nat.shiftRight_eq_div_pow] at hnat
  apply UInt64.toNat_inj.mp
  by_contra hne
  have hpos : 0 < word.toNat := Nat.pos_of_ne_zero hne
  have hpow : 1 < 2 ^ (amount.toNat % 64) := Nat.one_lt_two_pow (Nat.ne_of_gt hamount)
  exact absurd hnat (Nat.ne_of_gt (Nat.div_lt_self hpos hpow))

theorem eq_zero_of_mul {word factor inverse : UInt64} (hfactor : factor * inverse = 1)
    (h : word * factor = 0) : word = 0 := by
  have hback := congrArg (· * inverse) h
  simp only [UInt64.zero_mul] at hback
  rwa [UInt64.mul_assoc, hfactor, UInt64.mul_one] at hback

theorem first_factor_inverse :
    (0xbf58476d1ce4e5b9 : UInt64) * 0x96de1b173f119089 = 1 := by
  decide

theorem second_factor_inverse :
    (0x94d049bb133111eb : UInt64) * 0x319642b2d24d8ec3 = 1 := by
  decide

theorem mix_eq_zero {counter : UInt64} (h : mix counter = 0) : counter = 0 := by
  have hsecond := eq_zero_of_xor_shift (by decide) h
  have hfirst := eq_zero_of_xor_shift (by decide)
    (eq_zero_of_mul second_factor_inverse hsecond)
  exact eq_zero_of_xor_shift (by decide)
    (eq_zero_of_mul first_factor_inverse hfirst)

theorem fromSeed_nonzero (seed : UInt64) : ¬ (fromSeed seed).Zero := by
  rintro ⟨hfirst, hsecond, -, -⟩
  have hcounter : seed + goldenGamma = 0 := mix_eq_zero hfirst
  have hnext : seed + goldenGamma + goldenGamma = 0 := mix_eq_zero hsecond
  rw [hcounter] at hnext
  exact absurd hnext (by decide)

theorem eq_zero_of_eq_shift {word : UInt64} (h : word = word <<< 17) : word = 0 := by
  have hnat := congrArg UInt64.toNat h
  rw [UInt64.toNat_shiftLeft, Nat.shiftLeft_eq] at hnat
  have hlt := word.toNat_lt
  apply UInt64.toNat_inj.mp
  have hdvd : 2 ^ 64 ∣ word.toNat * (2 ^ 17 - 1) := by
    refine ⟨word.toNat * 2 ^ 17 / 2 ^ 64, ?_⟩
    have hdiv := Nat.div_add_mod (word.toNat * 2 ^ 17) (2 ^ 64)
    have hmod : word.toNat * 2 ^ 17 % 2 ^ 64 = word.toNat := hnat.symm
    omega
  have hcoprime : Nat.Coprime (2 ^ 64) (2 ^ 17 - 1) := by norm_num
  have hzero := Nat.eq_zero_of_dvd_of_lt (hcoprime.dvd_of_dvd_mul_right hdvd) hlt
  exact hzero

theorem eq_zero_of_rotate {word : UInt64} (h : rotateLeft word 45 = 0) : word = 0 := by
  obtain ⟨hleft, hright⟩ := UInt64.or_eq_zero_iff.mp h
  have hhigh := congrArg UInt64.toNat hright
  have hlow := congrArg UInt64.toNat hleft
  rw [UInt64.toNat_shiftRight, Nat.shiftRight_eq_div_pow] at hhigh
  rw [UInt64.toNat_shiftLeft, Nat.shiftLeft_eq] at hlow
  have hhigh' : word.toNat / 2 ^ 19 = 0 := hhigh
  have hlow' : word.toNat * 2 ^ 45 % 2 ^ 64 = 0 := hlow
  apply UInt64.toNat_inj.mp
  show word.toNat = 0
  omega

theorem nextU64_nonzero {stream : Seeded} (h : ¬ stream.Zero) : ¬ stream.nextU64.2.Zero := by
  rintro ⟨h0, h1, h2, h3⟩
  have ht3 : stream.s3 ^^^ stream.s1 = 0 := eq_zero_of_rotate h3
  have hs0 : stream.s0 = 0 := by
    have hxor : stream.s0 ^^^ (stream.s3 ^^^ stream.s1) = 0 := h0
    rwa [ht3, UInt64.xor_zero] at hxor
  have hs1 : stream.s1 = stream.s2 ^^^ stream.s0 := UInt64.xor_eq_zero_iff.mp h1
  have ht2 : stream.s2 ^^^ stream.s0 = stream.s1 <<< 17 := UInt64.xor_eq_zero_iff.mp h2
  have hzero : stream.s1 = 0 := eq_zero_of_eq_shift (hs1.trans ht2)
  rw [hzero, UInt64.xor_zero] at ht3
  rw [hzero, hs0, UInt64.xor_zero] at hs1
  exact h ⟨hs0, hzero, hs1.symm, ht3⟩

theorem after_nonzero (seed : UInt64) (count : Nat) : ¬ ((fromSeed seed).after count).Zero := by
  induction count with
  | zero => exact fromSeed_nonzero seed
  | succ count ih => exact nextU64_nonzero ih

end States

section Counting

theorem ceil_le {bound : Nat} (hbound : 0 < bound) (least word : Nat) :
    (least + bound - 1) / bound ≤ word ↔ least ≤ word * bound := by
  rw [← Nat.lt_succ_iff, Nat.div_lt_iff_lt_mul hbound, Nat.succ_mul]
  omega

/-- The multiples that leave a residue of at least the threshold behind a number of turns are
those of an interval as long as the quotient. -/
theorem accepted_interval {bound size : Nat} (hbound : 0 < bound) (hsize : 0 < size)
    (value word : Nat) :
    (size % bound ≤ word * bound % size ∧ word * bound / size = value) ↔
      (value * size + size % bound + bound - 1) / bound ≤ word ∧
        word < (value * size + size % bound + bound - 1) / bound + size / bound := by
  have hshift : (value * size + size % bound + bound - 1) / bound + size / bound =
      (value * size + size + bound - 1) / bound := by
    have hsplit := Nat.mod_add_div' size bound
    have hsum : value * size + size + bound - 1 =
        value * size + size % bound + bound - 1 + size / bound * bound := by omega
    rw [hsum, Nat.add_mul_div_right _ _ hbound]
  rw [hshift, ← Nat.not_le, ceil_le hbound, ceil_le hbound, Nat.not_le]
  have hdiv := Nat.div_add_mod' (word * bound) size
  have hless := Nat.mod_lt (word * bound) hsize
  constructor
  · rintro ⟨hresidue, rfl⟩
    omega
  · rintro ⟨hleast, hmost⟩
    have hvalue : word * bound / size = value := by
      apply Nat.div_eq_of_lt_le
      · omega
      · rw [Nat.succ_mul]
        exact hmost
    rw [hvalue] at hdiv
    exact ⟨by omega, hvalue⟩

theorem threshold_toNat {bound : UInt64} (hbound : 0 < bound) :
    (Seeded.threshold bound).toNat = 2 ^ 64 % bound.toNat := by
  have hpos : 0 < bound.toNat := hbound
  have hlt := bound.toNat_lt
  rw [Seeded.threshold, UInt64.toNat_mod, UInt64.toNat_sub, UInt64.toNat_zero, Nat.add_zero,
    Nat.mod_eq_of_lt (Nat.sub_lt (Nat.two_pow_pos 64) hpos),
    Nat.mod_eq_sub_mod (Nat.le_of_lt hlt)]

theorem accept_eq_some_iff {bound : UInt64} (hbound : 0 < bound) (word value : UInt64) :
    Seeded.accept bound word = some value ↔
      2 ^ 64 % bound.toNat ≤ word.toNat * bound.toNat % 2 ^ 64 ∧
        word.toNat * bound.toNat / 2 ^ 64 = value.toNat := by
  have hproduct : word.toNat * bound.toNat < 2 ^ 64 * 2 ^ 64 :=
    Nat.mul_lt_mul_of_lt_of_lt word.toNat_lt bound.toNat_lt
  have hhigh : word.toNat * bound.toNat / 2 ^ 64 < 2 ^ 64 := Nat.div_lt_of_lt_mul hproduct
  have hwide : word.toNat * bound.toNat % 2 ^ 128 = word.toNat * bound.toNat :=
    Nat.mod_eq_of_lt (by rwa [← Nat.pow_add] at hproduct)
  unfold Seeded.accept
  dsimp only
  rw [hwide, Option.ite_none_right_eq_some, UInt64.le_iff_toNat_le, threshold_toNat hbound,
    UInt64.toNat_ofNat', Nat.mod_mod, Option.some.injEq, ← UInt64.toNat_inj, UInt64.toNat_ofNat',
    Nat.mod_eq_of_lt hhigh]

theorem accept_lt {bound word value : UInt64} (hbound : 0 < bound)
    (h : Seeded.accept bound word = some value) : value < bound := by
  have hvalue := ((accept_eq_some_iff hbound word value).mp h).2
  rw [UInt64.lt_iff_toNat_lt, ← hvalue]
  apply Nat.div_lt_of_lt_mul
  exact Nat.mul_lt_mul_of_pos_right word.toNat_lt hbound

def acceptedWith (bound value : UInt64) : Finset Nat :=
  (Finset.range (2 ^ 64)).filter fun word =>
    Seeded.accept bound (UInt64.ofNat word) = some value

def refusedWords (bound : UInt64) : Finset Nat :=
  (Finset.range (2 ^ 64)).filter fun word => Seeded.accept bound (UInt64.ofNat word) = none

theorem acceptedWith_eq_Ico {bound value : UInt64} (hvalue : value < bound) :
    acceptedWith bound value =
      Finset.Ico ((value.toNat * 2 ^ 64 + 2 ^ 64 % bound.toNat + bound.toNat - 1) / bound.toNat)
        ((value.toNat * 2 ^ 64 + 2 ^ 64 % bound.toNat + bound.toNat - 1) / bound.toNat +
          2 ^ 64 / bound.toNat) := by
  have hless : value.toNat < bound.toNat := hvalue
  have hpos : 0 < bound.toNat := Nat.zero_lt_of_lt hless
  ext word
  rw [acceptedWith, Finset.mem_filter, Finset.mem_range, Finset.mem_Ico,
    ← accepted_interval hpos (Nat.two_pow_pos 64)]
  constructor
  · rintro ⟨hword, haccept⟩
    have hparts := (accept_eq_some_iff hpos _ _).mp haccept
    rwa [UInt64.toNat_ofNat', Nat.mod_eq_of_lt hword] at hparts
  · rintro ⟨hresidue, hquotient⟩
    have hword : word < 2 ^ 64 := by
      have hturn : word * bound.toNat < 2 ^ 64 * bound.toNat := by
        rw [Nat.mul_comm (2 ^ 64)]
        exact (Nat.div_lt_iff_lt_mul (Nat.two_pow_pos 64)).mp (hquotient ▸ hless)
      exact Nat.lt_of_mul_lt_mul_right hturn
    refine ⟨hword, (accept_eq_some_iff hpos _ _).mpr ?_⟩
    rw [UInt64.toNat_ofNat', Nat.mod_eq_of_lt hword]
    exact ⟨hresidue, hquotient⟩

theorem card_acceptedWith {bound value : UInt64} (hvalue : value < bound) :
    (acceptedWith bound value).card = 2 ^ 64 / bound.toNat := by
  rw [acceptedWith_eq_Ico hvalue, Nat.card_Ico, Nat.add_sub_cancel_left]

theorem filter_value {bound : UInt64} (hbound : 0 < bound) {value : Nat}
    (hvalue : value < bound.toNat) :
    (((Finset.range (2 ^ 64)).filter fun word =>
        ¬ Seeded.accept bound (UInt64.ofNat word) = none).filter fun word =>
      word * bound.toNat / 2 ^ 64 = value) = acceptedWith bound (UInt64.ofNat value) := by
  have hsame : (UInt64.ofNat value).toNat = value := by
    rw [UInt64.toNat_ofNat', Nat.mod_eq_of_lt (Nat.lt_trans hvalue bound.toNat_lt)]
  ext word
  simp only [acceptedWith, Finset.mem_filter, Finset.mem_range, and_assoc]
  apply and_congr_right
  intro hword
  have hback : (UInt64.ofNat word).toNat = word := by
    rw [UInt64.toNat_ofNat', Nat.mod_eq_of_lt hword]
  constructor
  · rintro ⟨haccept, hquotient⟩
    obtain ⟨found, hfound⟩ := Option.ne_none_iff_exists'.mp haccept
    have hparts := ((accept_eq_some_iff hbound _ _).mp hfound).2
    rw [hback, hquotient] at hparts
    rw [hfound, hparts, UInt64.ofNat_toNat]
  · intro haccept
    have hparts := ((accept_eq_some_iff hbound _ _).mp haccept).2
    rw [hback, hsame] at hparts
    exact ⟨Option.ne_none_iff_exists'.mpr ⟨_, haccept⟩, hparts⟩

theorem card_refusedWords {bound : UInt64} (hbound : 0 < bound) :
    (refusedWords bound).card = 2 ^ 64 % bound.toNat := by
  have hsplit := Finset.card_filter_add_card_filter_not (s := Finset.range (2 ^ 64))
    (fun word => Seeded.accept bound (UInt64.ofNat word) = none)
  have haccepted : ((Finset.range (2 ^ 64)).filter fun word =>
      ¬ Seeded.accept bound (UInt64.ofNat word) = none).card =
        bound.toNat * (2 ^ 64 / bound.toNat) := by
    rw [Finset.card_eq_sum_card_fiberwise (t := Finset.range bound.toNat)
      (f := fun word => word * bound.toNat / 2 ^ 64),
      Finset.sum_const_nat (m := 2 ^ 64 / bound.toNat), Finset.card_range]
    · intro value hvalue
      have hless := Finset.mem_range.mp hvalue
      rw [filter_value hbound hless, card_acceptedWith]
      rwa [UInt64.lt_iff_toNat_lt, UInt64.toNat_ofNat',
        Nat.mod_eq_of_lt (Nat.lt_trans hless bound.toNat_lt)]
    · intro word hword
      have hless := Finset.mem_range.mp (Finset.mem_filter.mp hword).1
      rw [Finset.mem_coe, Finset.mem_range]
      apply Nat.div_lt_of_lt_mul
      exact Nat.mul_lt_mul_of_pos_right hless hbound
  rw [haccepted, Finset.card_range] at hsplit
  have hdiv := Nat.mod_add_div (2 ^ 64) bound.toNat
  unfold refusedWords
  omega

end Counting

section Runs

theorem after_next (stream : Seeded) (count : Nat) :
    stream.nextU64.2.after count = stream.after (count + 1) := by
  induction count with
  | zero => rfl
  | succ count ih => exact congrArg (fun stream => (Seeded.nextU64 stream).2) ih

theorem wordAt_next (stream : Seeded) (place : Nat) :
    stream.nextU64.2.wordAt place = stream.wordAt (place + 1) := by
  rw [Seeded.wordAt, after_next, Seeded.wordAt]

structure Drawn (stream : Seeded) (bound value : UInt64) (next : Seeded) (count : Nat) : Prop where
  refused : ∀ place < count, Seeded.accept bound (stream.wordAt place) = none
  accepted : Seeded.accept bound (stream.wordAt count) = some value
  stops : next = stream.after (count + 1)

theorem drawn_zero_iff {stream next : Seeded} {bound value : UInt64} :
    Drawn stream bound value next 0 ↔
      Seeded.accept bound stream.nextU64.1 = some value ∧ next = stream.nextU64.2 :=
  ⟨fun h => ⟨h.accepted, h.stops⟩, fun ⟨haccept, hnext⟩ =>
    ⟨fun _ hplace => absurd hplace (Nat.not_lt_zero _), haccept, hnext⟩⟩

theorem drawn_succ_iff {stream next : Seeded} {bound value : UInt64} {count : Nat} :
    Drawn stream bound value next (count + 1) ↔
      Seeded.accept bound stream.nextU64.1 = none ∧
        Drawn stream.nextU64.2 bound value next count := by
  constructor
  · intro h
    refine ⟨h.refused 0 (Nat.succ_pos count), ?_, ?_, ?_⟩
    · intro place hplace
      rw [wordAt_next]
      exact h.refused (place + 1) (Nat.succ_lt_succ hplace)
    · rw [wordAt_next]
      exact h.accepted
    · rw [after_next]
      exact h.stops
  · rintro ⟨hfirst, h⟩
    refine ⟨?_, ?_, ?_⟩
    · intro place hplace
      cases place with
      | zero => exact hfirst
      | succ place =>
        rw [← wordAt_next]
        exact h.refused place (Nat.lt_of_succ_lt_succ hplace)
    · rw [← wordAt_next]
      exact h.accepted
    · rw [← after_next]
      exact h.stops

theorem drawBelow_of_some {bound value : UInt64} {stream : Seeded}
    (haccept : Seeded.accept bound stream.nextU64.1 = some value) (fuel : Nat) :
    Seeded.drawBelow bound (fuel + 1) stream = some (value, stream.nextU64.2) := by
  simp only [Seeded.drawBelow, haccept]

theorem drawBelow_of_none {bound : UInt64} {stream : Seeded}
    (haccept : Seeded.accept bound stream.nextU64.1 = none) (fuel : Nat) :
    Seeded.drawBelow bound (fuel + 1) stream =
      Seeded.drawBelow bound fuel stream.nextU64.2 := by
  simp only [Seeded.drawBelow, haccept]

theorem drawBelow_eq_some_iff {bound value : UInt64} {fuel : Nat} {stream next : Seeded} :
    Seeded.drawBelow bound fuel stream = some (value, next) ↔
      ∃ count < fuel, Drawn stream bound value next count := by
  induction fuel generalizing stream with
  | zero =>
    constructor
    · intro h
      cases h
    · rintro ⟨count, hcount, -⟩
      exact absurd hcount (Nat.not_lt_zero count)
  | succ fuel ih =>
    cases haccept : Seeded.accept bound stream.nextU64.1 with
    | some found =>
      rw [drawBelow_of_some haccept]
      simp only [Option.some.injEq, Prod.mk.injEq]
      constructor
      · rintro ⟨rfl, rfl⟩
        exact ⟨0, Nat.succ_pos fuel, drawn_zero_iff.mpr ⟨haccept, rfl⟩⟩
      · rintro ⟨count, -, hdrawn⟩
        cases count with
        | zero =>
          obtain ⟨hvalue, hnext⟩ := drawn_zero_iff.mp hdrawn
          exact ⟨Option.some.inj (haccept.symm.trans hvalue), hnext.symm⟩
        | succ count =>
          rw [(drawn_succ_iff.mp hdrawn).1] at haccept
          cases haccept
    | none =>
      rw [drawBelow_of_none haccept, ih]
      constructor
      · rintro ⟨count, hcount, hdrawn⟩
        exact ⟨count + 1, Nat.succ_lt_succ hcount, drawn_succ_iff.mpr ⟨haccept, hdrawn⟩⟩
      · rintro ⟨count, hcount, hdrawn⟩
        cases count with
        | zero =>
          rw [(drawn_zero_iff.mp hdrawn).1] at haccept
          cases haccept
        | succ count =>
          exact ⟨count, Nat.lt_of_succ_lt_succ hcount, (drawn_succ_iff.mp hdrawn).2⟩

theorem below_eq_ok_iff {stream next : Seeded} {bound value : UInt64} {fuel : Nat} :
    stream.below bound fuel = some (.ok value, next) ↔
      0 < bound ∧ ∃ count < fuel, Drawn stream bound value next count := by
  unfold Seeded.below
  by_cases hbound : bound = 0
  · simp [hbound]
  · have hpos : 0 < bound := UInt64.pos_iff_ne_zero.mpr hbound
    rw [if_neg hbound, ← drawBelow_eq_some_iff]
    simp [hpos]

end Runs

section Uniform

theorem refused_at_most_half {bound : UInt64} (hbound : 0 < bound) :
    2 * (refusedWords bound).card ≤ 2 ^ 64 := by
  rw [card_refusedWords hbound]
  have hpos : 0 < bound.toNat := hbound
  have hless := Nat.mod_lt (2 ^ 64) hpos
  have hquotient : 1 ≤ 2 ^ 64 / bound.toNat :=
    (Nat.one_le_div_iff hpos).mpr (Nat.le_of_lt bound.toNat_lt)
  have hwhole : bound.toNat * 1 ≤ bound.toNat * (2 ^ 64 / bound.toNat) :=
    Nat.mul_le_mul_left _ hquotient
  have hdiv := Nat.mod_add_div (2 ^ 64) bound.toNat
  omega

theorem refused_none {bound : UInt64} (hbound : 0 < bound) {exponent : Nat}
    (hpower : bound.toNat = 2 ^ exponent) : (refusedWords bound).card = 0 := by
  rw [card_refusedWords hbound, hpower]
  apply Nat.mod_eq_zero_of_dvd
  apply Nat.pow_dvd_pow
  apply Nat.le_of_lt
  rw [← Nat.pow_lt_pow_iff_right (Nat.lt_succ_self 1), ← hpower]
  exact bound.toNat_lt

structure Exact (bound : UInt64) : Prop where
  uniform : ∀ value < bound, (acceptedWith bound value).card = 2 ^ 64 / bound.toNat
  below : ∀ word value, Seeded.accept bound word = some value → value < bound
  half : 2 * (refusedWords bound).card ≤ 2 ^ 64
  power : ∀ exponent, bound.toNat = 2 ^ exponent → (refusedWords bound).card = 0
  draws : ∀ stream value next fuel, Seeded.below stream bound fuel = some (.ok value, next) ↔
    ∃ count < fuel, Drawn stream bound value next count

/-- Draws below every bound are exact, the empty range moves no stream, and no number of words
takes the stream of a seed to zero. -/
theorem draws_exact :
    (∀ bound, 0 < bound → Exact bound) ∧
      (∀ stream fuel, Seeded.below stream 0 fuel = some (.error .emptyRange, stream)) ∧
      ∀ seed count, ¬ ((fromSeed seed).after count).Zero := by
  refine ⟨?_, ?_, after_nonzero⟩
  · intro bound hbound
    constructor
    case uniform => exact fun value hvalue => card_acceptedWith hvalue
    case below => exact fun word value haccept => accept_lt hbound haccept
    case half => exact refused_at_most_half hbound
    case power => exact fun exponent hpower => refused_none hbound hpower
    case draws =>
      intro stream value next fuel
      rw [below_eq_ok_iff]
      exact and_iff_right hbound
  · intro stream fuel
    rfl

end Uniform

end LogicalWorks.Draws
