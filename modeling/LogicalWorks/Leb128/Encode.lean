import LogicalWorks.Lib.Groups
import Mathlib.Algebra.Order.Ring.Nat

/-! The encoders of the codec: a group of seven bits a step, until the rest says nothing new. -/
namespace LogicalWorks.Leb128

open Groups

def payload {w : Nat} (integer : BitVec w) : UInt8 := UInt8.ofBitVec (integer.setWidth 8) &&& 0x7f

namespace Unsigned

def shifted {w : Nat} (integer : BitVec w) : BitVec w := integer >>> 7

def isExhausted {w : Nat} (integer : BitVec w) (_signBit : Bool) : Bool := integer == 0

end Unsigned

namespace Signed

def shifted {w : Nat} (integer : BitVec w) : BitVec w := integer.sshiftRight 7

def isExhausted {w : Nat} (integer : BitVec w) (signBit : Bool) : Bool :=
  (integer == 0 && !signBit) || (integer == -1 && signBit)

end Signed

def encodeUnsignedStep {w : Nat} (integer : BitVec w) : BitVec w × UInt8 × Bool :=
  let byte := payload integer
  let integer := Unsigned.shifted integer
  let done := Unsigned.isExhausted integer false
  (integer, if done then byte else byte ||| 0x80, done)

def encodeSignedStep {w : Nat} (integer : BitVec w) : BitVec w × UInt8 × Bool :=
  let byte := payload integer
  let integer := Signed.shifted integer
  let done := Signed.isExhausted integer (byte &&& 0x40 != 0)
  (integer, if done then byte else byte ||| 0x80, done)

section Bytes

variable {w : Nat}

theorem toNat_and_low (byte : UInt8) : (byte &&& 0x7f).toNat = byte.toNat % 128 := by
  rw [UInt8.toNat_and]
  exact Nat.and_two_pow_sub_one_eq_mod byte.toNat 7

theorem toNat_payload (integer : BitVec w) :
    (payload integer).toNat = integer.toNat % 128 := by
  have hlow : (integer.setWidth 8).toNat = integer.toNat % 256 := BitVec.toNat_setWidth 8 integer
  have hbyte : (UInt8.ofBitVec (integer.setWidth 8)).toNat = (integer.setWidth 8).toNat := rfl
  unfold payload
  rw [toNat_and_low, hbyte, hlow]
  omega

theorem toNat_or_high {byte : UInt8} (h : byte.toNat < 128) :
    (byte ||| 0x80).toNat = byte.toNat + 128 := by
  have hor : 2 ^ 7 * 1 + byte.toNat = 2 ^ 7 * 1 ||| byte.toNat := Nat.two_pow_add_eq_or_of_lt h 1
  rw [UInt8.toNat_or, Nat.or_comm, Nat.add_comm byte.toNat]
  exact hor.symm

theorem payload_lt (integer : BitVec w) : (payload integer).toNat < 128 := by
  unfold payload
  rw [toNat_and_low]
  omega

theorem toNat_shifted (integer : BitVec w) :
    (Unsigned.shifted integer).toNat = integer.toNat / 128 := by
  unfold Unsigned.shifted
  rw [BitVec.toNat_ushiftRight]
  exact Nat.shiftRight_eq_div_pow _ 7

theorem toInt_shifted (integer : BitVec w) :
    (Signed.shifted integer).toInt = integer.toInt / 128 := by
  unfold Signed.shifted
  rw [BitVec.toInt_sshiftRight]
  exact Int.shiftRight_eq_div_pow _ 7

theorem toInt_emod (hw : 8 ≤ w) (integer : BitVec w) :
    integer.toInt % 128 = ((integer.toNat % 128 : Nat) : Int) := by
  obtain ⟨k, hk⟩ : (128 : Int) ∣ ((2 ^ w : Nat) : Int) := by
    rw [show w = 7 + (w - 7) by omega, Nat.pow_add, Nat.cast_mul]
    exact Dvd.intro _ rfl
  rw [BitVec.toInt_eq_toNat_cond]
  split <;> omega

theorem and_sign_ne_zero (byte : UInt8) :
    (byte &&& 0x40 != 0) = decide (64 ≤ byte.toNat % 128) := by
  have hall : ∀ value : Fin 256, (UInt8.ofFin value &&& 0x40 != 0) =
      decide (64 ≤ (UInt8.ofFin value).toNat % 128) := by
    decide +kernel
  exact hall byte.toFin

theorem and_more_eq_zero (byte : UInt8) : byte &&& 0x80 = 0 ↔ byte.toNat < 128 := by
  have hall : ∀ value : Fin 256,
      UInt8.ofFin value &&& 0x80 = 0 ↔ (UInt8.ofFin value).toNat < 128 := by
    decide +kernel
  exact hall byte.toFin

end Bytes

theorem encodeUnsignedStep_done {w : Nat} (integer : BitVec w) :
    (encodeUnsignedStep integer).2.2 = true ↔
      ((integer.toNat / 128 : Nat) : Int) = unsigned (payload integer).toNat := by
  show (Unsigned.shifted integer == 0) = true ↔ ((integer.toNat / 128 : Nat) : Int) = 0
  rw [beq_iff_eq, ← toNat_shifted, ← BitVec.toNat_inj]
  simp

theorem unsigned_settles {w : Nat} (integer : BitVec w)
    (h : ¬ (encodeUnsignedStep integer).2.2 = true) :
    (encodeUnsignedStep integer).1.toNat < integer.toNat := by
  rw [encodeUnsignedStep_done] at h
  show (Unsigned.shifted integer).toNat < integer.toNat
  rw [toNat_shifted]
  unfold unsigned at h
  omega

def emitUnsignedGroups {w : Nat} (integer : BitVec w) (out : List UInt8) : List UInt8 :=
  let step := encodeUnsignedStep integer
  if hdone : step.2.2 = true then out ++ [step.2.1]
  else emitUnsignedGroups step.1 (out ++ [step.2.1])
termination_by integer.toNat
decreasing_by exact unsigned_settles integer hdone

theorem isExhausted_iff {w : Nat} (hw : 8 ≤ w) (integer : BitVec w) (signBit : Bool) :
    Signed.isExhausted integer signBit = true ↔
      integer.toInt = if signBit then -1 else 0 := by
  have hzero : integer = 0 ↔ integer.toInt = 0 := by
    rw [← BitVec.toInt_inj]
    simp
  have hones : integer = -1 ↔ integer.toInt = -1 := by
    have hminus : (-1 : BitVec w).toInt = -1 := by
      have h : (-1 : BitVec w) = BitVec.allOnes w := BitVec.neg_one_eq_allOnes
      rw [h, BitVec.toInt_allOnes, if_pos (by omega)]
    rw [← BitVec.toInt_inj, hminus]
  unfold Signed.isExhausted
  cases signBit
  · simpa using hzero
  · simpa using hones

theorem encodeSignedStep_done {w : Nat} (hw : 8 ≤ w) (integer : BitVec w) :
    (encodeSignedStep integer).2.2 = true ↔
      integer.toInt / 128 = signed (payload integer).toNat := by
  show Signed.isExhausted (Signed.shifted integer) (payload integer &&& 0x40 != 0) = true ↔ _
  rw [isExhausted_iff hw, toInt_shifted, and_sign_ne_zero,
    Nat.mod_eq_of_lt (payload_lt integer)]
  unfold signed
  simp only [decide_eq_true_eq]

theorem signed_settles {w : Nat} (hw : 8 ≤ w) (integer : BitVec w)
    (h : ¬ (encodeSignedStep integer).2.2 = true) :
    (encodeSignedStep integer).1.toInt.natAbs < integer.toInt.natAbs := by
  rw [encodeSignedStep_done hw] at h
  have hlow := toInt_emod hw integer
  rw [← toNat_payload] at hlow
  unfold signed at h
  show (Signed.shifted integer).toInt.natAbs < integer.toInt.natAbs
  rw [toInt_shifted]
  split at h <;> omega

def emitSignedGroups {w : Nat} (hw : 8 ≤ w) (integer : BitVec w) (out : List UInt8) :
    List UInt8 :=
  let step := encodeSignedStep integer
  if hdone : step.2.2 = true then out ++ [step.2.1]
  else emitSignedGroups hw step.1 (out ++ [step.2.1])
termination_by integer.toInt.natAbs
decreasing_by exact signed_settles hw integer hdone

def encodeU64 (integer : BitVec 64) (out : List UInt8) : List UInt8 :=
  emitUnsignedGroups integer out

def encodeU32 (integer : BitVec 32) (out : List UInt8) : List UInt8 :=
  emitUnsignedGroups integer out

def encodeI64 (integer : BitVec 64) (out : List UInt8) : List UInt8 :=
  emitSignedGroups (by decide) integer out

def encodeI32 (integer : BitVec 32) (out : List UInt8) : List UInt8 :=
  emitSignedGroups (by decide) integer out

theorem Spelt.of_last {carry : Nat → Int} {byte : UInt8} {value rest : Int}
    (hbyte : byte.toNat < 128) (hvalue : value = byte.toNat + 128 * rest)
    (hrest : rest = carry byte.toNat) : Spelt carry value [byte] := by
  rw [hvalue, hrest]
  exact Spelt.last hbyte

theorem Spelt.of_more {carry : Nat → Int} {byte : UInt8} {value rest : Int}
    {bytes : List UInt8} (hbyte : byte.toNat < 128) (hvalue : value = byte.toNat + 128 * rest)
    (hneeded : rest ≠ carry byte.toNat) (hrest : Spelt carry rest bytes) :
    Spelt carry value ((byte ||| 0x80) :: bytes) := by
  have hgroup : (byte ||| 0x80).toNat - 128 = byte.toNat := by
    rw [toNat_or_high hbyte]
    omega
  have hmore : 128 ≤ (byte ||| 0x80).toNat := by
    rw [toNat_or_high hbyte]
    omega
  have hspelt := Spelt.more hmore (by rw [hgroup]; exact hneeded) hrest
  rw [hgroup, ← hvalue] at hspelt
  exact hspelt

theorem emitUnsignedGroups_spelt {w : Nat} (integer : BitVec w) (out : List UInt8) :
    ∃ bytes, emitUnsignedGroups integer out = out ++ bytes ∧
      Spelt unsigned (integer.toNat : Int) bytes := by
  have hvalue (integer : BitVec w) : (integer.toNat : Int) =
      (payload integer).toNat + 128 * ((integer.toNat / 128 : Nat) : Int) := by
    rw [toNat_payload]
    omega
  fun_induction emitUnsignedGroups integer out with
  | case1 integer out step hdone =>
    have hexhausted := (encodeUnsignedStep_done integer).mp hdone
    have hbyte : step.2.1 = payload integer := if_pos hdone
    rw [hbyte]
    exact ⟨_, rfl, Spelt.of_last (payload_lt integer) (hvalue integer) hexhausted⟩
  | case2 integer out step hdone ih =>
    obtain ⟨bytes, hbytes, hspelt⟩ := ih
    have hneeded := fun h => hdone ((encodeUnsignedStep_done integer).mpr h)
    have hbyte : step.2.1 = payload integer ||| 0x80 := if_neg hdone
    have hshifted : step.1.toNat = integer.toNat / 128 := toNat_shifted integer
    rw [hshifted] at hspelt
    rw [hbytes, hbyte]
    exact ⟨_, by simp, Spelt.of_more (payload_lt integer) (hvalue integer) hneeded hspelt⟩

theorem emitSignedGroups_spelt {w : Nat} (hw : 8 ≤ w) (integer : BitVec w)
    (out : List UInt8) :
    ∃ bytes, emitSignedGroups hw integer out = out ++ bytes ∧
      Spelt signed integer.toInt bytes := by
  have hvalue (integer : BitVec w) : integer.toInt =
      (payload integer).toNat + 128 * (integer.toInt / 128) := by
    have hlow := toInt_emod hw integer
    rw [← toNat_payload] at hlow
    omega
  fun_induction emitSignedGroups hw integer out with
  | case1 integer out step hdone =>
    have hexhausted := (encodeSignedStep_done hw integer).mp hdone
    have hbyte : step.2.1 = payload integer := if_pos hdone
    rw [hbyte]
    exact ⟨_, rfl, Spelt.of_last (payload_lt integer) (hvalue integer) hexhausted⟩
  | case2 integer out step hdone ih =>
    obtain ⟨bytes, hbytes, hspelt⟩ := ih
    have hneeded := fun h => hdone ((encodeSignedStep_done hw integer).mpr h)
    have hbyte : step.2.1 = payload integer ||| 0x80 := if_neg hdone
    have hshifted : step.1.toInt = integer.toInt / 128 := toInt_shifted integer
    rw [hshifted] at hspelt
    rw [hbytes, hbyte]
    exact ⟨_, by simp, Spelt.of_more (payload_lt integer) (hvalue integer) hneeded hspelt⟩

end LogicalWorks.Leb128
