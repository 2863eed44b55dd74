import LogicalWorks.Leb128.Canonical
import Mathlib.Tactic.Ring

/-! The four widths check what they have to. -/
namespace LogicalWorks.Leb128

open Groups

section Checks

variable {w : Nat}

theorem checkOverflow_below (fits : BitVec w → Bool) {index top : Nat} (h : index < top)
    (chunk : BitVec w) (byte : UInt8) :
    checkOverflow (7 * top) fits (7 * index) chunk byte index = .ok () := by
  have hne : (7 * index == 7 * top) = false := by
    rw [beq_eq_false_iff_ne]
    omega
  unfold checkOverflow
  rw [hne, Bool.false_and, Bool.false_or, decide_eq_false (by omega)]
  rfl

theorem checkOverflow_top (fits : BitVec w → Bool) (top : Nat) (chunk : BitVec w)
    (byte : UInt8) :
    checkOverflow (7 * top) fits (7 * top) chunk byte top =
      if byte.toNat < 128 ∧ fits chunk = true then .ok () else .error (.overflow top) := by
  have hmore : (byte &&& 0x80 != 0) = !decide (byte.toNat < 128) := by
    rw [bne, decide_eq_decide.mpr (and_more_eq_zero byte).symm]
    rfl
  unfold checkOverflow
  rw [beq_self_eq_true, Bool.true_and, hmore, decide_eq_false (Nat.lt_irrefl _), Bool.or_false]
  by_cases hbyte : byte.toNat < 128
  · rw [decide_eq_true hbyte]
    cases hfits : fits chunk
    · exact (if_neg fun h => Bool.noConfusion h.2).symm
    · exact (if_pos ⟨hbyte, rfl⟩).symm
  · rw [decide_eq_false hbyte, Bool.not_false, Bool.or_true]
    exact (if_neg fun h => hbyte h.1).symm

theorem checkMinimalUnsigned_eq (index : Nat) (byte : UInt8) (below : Nat) :
    checkMinimalUnsigned index byte =
      if 0 < index ∧ lastValue unsigned byte.toNat = unsigned below then .error (.nonMinimal index)
      else .ok () := by
  have hzero : byte = 0 ↔ lastValue unsigned byte.toNat = unsigned below := by
    unfold lastValue unsigned
    rw [← UInt8.toNat_inj]
    simp
  unfold checkMinimalUnsigned
  simp only [Bool.and_eq_true, decide_eq_true_eq, beq_iff_eq, hzero, gt_iff_lt]
  rfl

theorem checkMinimalSigned_eq (index : Nat) (byte prevByte : UInt8) (hbyte : byte.toNat < 128)
    (hprev : 0 < index → 128 ≤ prevByte.toNat) :
    checkMinimalSigned index byte prevByte =
      if 0 < index ∧ lastValue signed byte.toNat = signed (prevByte.toNat - 128) then
        .error (.nonMinimal index)
      else .ok () := by
  have hzero : byte = 0 ↔ byte.toNat = 0 := UInt8.toNat_inj.symm
  have hones : byte = 0x7f ↔ byte.toNat = 127 := UInt8.toNat_inj.symm
  have hrange : prevByte.toNat < 256 := prevByte.toNat_lt
  unfold checkMinimalSigned
  by_cases hindex : 0 < index
  · have hgroup := hprev hindex
    have hmod : prevByte.toNat % 128 = prevByte.toNat - 128 := by omega
    simp only [hindex, if_true, true_and, and_sign_ne_zero, hmod]
    unfold lastValue signed
    by_cases hsign : 64 ≤ prevByte.toNat - 128
    · have hiff : (byte == 0x7f) = true ↔
          (byte.toNat : Int) + 128 * (if 64 ≤ byte.toNat then -1 else 0) = -1 := by
        rw [beq_iff_eq, hones]
        split <;> omega
      simp only [hsign, decide_true, Bool.not_true, Bool.false_and, Bool.false_or, Bool.true_and,
        if_true, hiff]
      rfl
    · have hiff : (byte == 0x00) = true ↔
          (byte.toNat : Int) + 128 * (if 64 ≤ byte.toNat then -1 else 0) = 0 := by
        rw [beq_iff_eq, hzero]
        split <;> omega
      simp only [hsign, decide_false, Bool.not_false, Bool.true_and, Bool.false_and, Bool.or_false,
        if_false, hiff]
      rfl
  · rw [if_neg hindex, if_neg fun h => hindex h.1]
    rfl

theorem ofInt_add_two_pow_mul (value multiple : Int) :
    BitVec.ofInt w (value + 2 ^ w * multiple) = BitVec.ofInt w value := by
  have hpow : BitVec.ofInt w (2 ^ w) = 0#w := by
    apply BitVec.eq_of_toNat_eq
    rw [BitVec.toNat_ofInt]
    simp
  rw [BitVec.ofInt_add, BitVec.ofInt_mul, hpow, BitVec.zero_mul, BitVec.add_zero]

theorem or_allOnes_shiftLeft {value shift : Nat} (hvalue : value < 2 ^ shift) :
    (BitVec.ofNat w value ||| (BitVec.allOnes w) <<< shift) =
      BitVec.ofInt w (value - 2 ^ shift) := by
  have hpos : 0 < 2 ^ w := Nat.two_pow_pos w
  have hones : (BitVec.allOnes w) <<< shift = BitVec.ofNat w ((2 ^ w - 1) <<< shift) := by
    apply BitVec.eq_of_toNat_eq
    rw [BitVec.toNat_shiftLeft, BitVec.toNat_ofNat, BitVec.toNat_allOnes]
  have hor : value ||| (2 ^ w - 1) <<< shift = (2 ^ w - 1) * 2 ^ shift + value := by
    rw [Nat.or_comm, ← Nat.shiftLeft_add_eq_or_of_lt hvalue, Nat.shiftLeft_eq]
  have hvalue : (((2 ^ w - 1) * 2 ^ shift + value : Nat) : Int) =
      (value - 2 ^ shift) + 2 ^ w * 2 ^ shift := by
    push_cast [Nat.cast_sub hpos]
    ring
  rw [hones, ← BitVec.ofNat_or, hor, ← BitVec.ofInt_natCast, hvalue, ofInt_add_two_pow_mul]

theorem signExtend_eq {top index acc : Nat} {byte : UInt8} (hw : w ≤ 7 * (top + 1))
    (hshort : top ≤ 9) (hindex : index ≤ top) (hacc : acc < 128 ^ index)
    (hbyte : byte.toNat < 128) :
    signExtend (7 * top) (BitVec.ofNat w (acc + 128 ^ index * byte.toNat)) (7 * index) byte =
      BitVec.ofInt w (acc + 128 ^ index * lastValue signed byte.toNat) := by
  have hvalue : (acc : Int) + 128 ^ index * lastValue signed byte.toNat =
      ((acc + 128 ^ index * byte.toNat : Nat) : Int) +
        2 ^ (7 * (index + 1)) * signed byte.toNat := by
    unfold lastValue
    rw [pow_mul, pow_succ]
    push_cast
    ring
  have hsaturating : saturatingAdd (7 * index) 7 = 7 * (index + 1) := by
    unfold saturatingAdd usizeMax
    omega
  have hbound : acc + 128 ^ index * byte.toNat < 2 ^ (7 * (index + 1)) := by
    rw [pow_mul]
    exact acc_lt hacc hbyte
  rw [hvalue]
  unfold signExtend
  rcases Nat.lt_or_eq_of_le hindex with hlt | rfl
  · have hshift : decide (7 * index < 7 * top) = true := decide_eq_true (by omega)
    rw [hshift, Bool.true_and, and_sign_ne_zero, Nat.mod_eq_of_lt hbyte, hsaturating]
    by_cases hsign : 64 ≤ byte.toNat
    · rw [if_pos (decide_eq_true hsign), or_allOnes_shiftLeft hbound]
      unfold signed
      rw [if_pos hsign, mul_neg_one, ← sub_eq_add_neg]
    · rw [if_neg (by simpa using hsign)]
      unfold signed
      rw [if_neg hsign, mul_zero, add_zero, BitVec.ofInt_natCast]
  · have hwide : (2 : Int) ^ (7 * (index + 1)) * signed byte.toNat =
        2 ^ w * (2 ^ (7 * (index + 1) - w) * signed byte.toNat) := by
      rw [← mul_assoc, ← pow_add, Nat.add_sub_cancel' hw]
    rw [decide_eq_false (Nat.lt_irrefl _), Bool.false_and, if_neg Bool.false_ne_true, hwide,
      ofInt_add_two_pow_mul, BitVec.ofInt_natCast]

end Checks

section Sound

variable {w top : Nat} {low high : Int}

def Admits (fits : BitVec w → Bool) (carry : Nat → Int) (low high : Int) : Prop :=
  ∀ value : Fin 256, value.val < 128 →
    (fits ((UInt8.ofFin value &&& 0x7f).toBitVec.setWidth w) = true ↔
      low ≤ lastValue carry value.val ∧ lastValue carry value.val < high)

instance decidableAdmits (fits : BitVec w → Bool) (carry : Nat → Int) (low high : Int) :
    Decidable (Admits fits carry low high) := by
  unfold Admits
  infer_instance

theorem Admits.checkOverflow {fits : BitVec w → Bool} {carry : Nat → Int}
    (hadmits : Admits fits carry low high) (top : Nat) (byte : UInt8) :
    checkOverflow (7 * top) fits (7 * top) ((byte &&& 0x7f).toBitVec.setWidth w) byte top =
      if byte.toNat < 128 ∧ low ≤ lastValue carry byte.toNat ∧
          lastValue carry byte.toNat < high then .ok ()
      else .error (.overflow top) := by
  rw [checkOverflow_top]
  by_cases hbyte : byte.toNat < 128
  · have hfits := hadmits byte.toFin hbyte
    exact if_congr (and_congr Iff.rfl hfits) rfl rfl
  · rw [if_neg fun h => hbyte h.1, if_neg fun h => hbyte h.1]

theorem unsigned_outside {group : Nat} {value : Int} {rest : List UInt8}
    (hspelt : Spelt unsigned value rest) (h : value ≠ unsigned group) :
    ¬ (0 ≤ group + 128 * value ∧ group + 128 * value < 128) := by
  have hpos := hspelt.nonneg
  unfold unsigned at h
  omega

theorem signed_outside {group : Nat} {value : Int} (hgroup : group < 128)
    (h : value ≠ signed group) :
    ¬ (-64 ≤ group + 128 * value ∧ group + 128 * value < 64) := by
  unfold signed at h
  split at h <;> omega

theorem signed_closes (below : Nat) : ∃ byte : UInt8, byte.toNat < 128 ∧
    lastValue signed byte.toNat ≠ signed below ∧ -1 ≤ lastValue signed byte.toNat ∧
    lastValue signed byte.toNat < 1 := by
  by_cases hsign : 64 ≤ below
  · exact ⟨0, by decide, by simp [lastValue, signed, hsign], by decide, by decide⟩
  · exact ⟨0x7f, by decide, by simp [lastValue, signed, hsign], by decide, by decide⟩

theorem unsigned_sound (fits : BitVec w → Bool) (hadmits : Admits fits unsigned 0 high)
    (hshort : top ≤ 9) (hhigh : 2 ≤ high ∧ high ≤ 128) :
    Width.Sound { checkOverflow := checkOverflow (7 * top) fits,
                  checkMinimal := fun index byte _ => checkMinimalUnsigned index byte,
                  widen := fun rawVal _ _ => rawVal } unsigned 0 high top where
  settled := settled_unsigned
  carries group := ⟨Int.le_refl 0, by unfold unsigned; omega⟩
  low_nonpos := Int.le_refl 0
  high_nonneg := by omega
  short := hshort
  below index byte h := checkOverflow_below fits h _ byte
  fits byte hbyte hlow hhigh := (hadmits.checkOverflow top byte).trans
    (if_pos ⟨hbyte, hlow, hhigh⟩)
  exceeds byte h := (hadmits.checkOverflow top byte).trans (if_neg h)
  minimal index byte prevByte _ _ := checkMinimalUnsigned_eq index byte _
  widens index acc byte _ _ _ _ := by
    show BitVec.ofNat w _ = _
    rw [lastValue, unsigned, mul_zero, add_zero, ← BitVec.ofInt_natCast]
    push_cast
    rfl
  outside group value rest _ hspelt h := fun hin => unsigned_outside hspelt h ⟨hin.1, by omega⟩
  closes below := by
    have hone : lastValue unsigned (UInt8.toNat 1) = 1 := by decide
    refine ⟨1, by decide, ?_, ?_, ?_⟩
    · rw [hone, unsigned]
      decide
    · rw [hone]
      decide
    · rw [hone]
      omega

theorem signed_sound (fits : BitVec w → Bool) (hadmits : Admits fits signed low high)
    (hw : w ≤ 7 * (top + 1)) (hshort : top ≤ 9) (hlow : -64 ≤ low ∧ low ≤ -1)
    (hhigh : 1 ≤ high ∧ high ≤ 64) :
    Width.Sound { checkOverflow := checkOverflow (7 * top) fits,
                  checkMinimal := checkMinimalSigned,
                  widen := signExtend (7 * top) } signed low high top where
  settled := settled_signed
  carries group := by
    unfold signed
    split <;> omega
  low_nonpos := by omega
  high_nonneg := by omega
  short := hshort
  below index byte h := checkOverflow_below fits h _ byte
  fits byte hbyte hlow hhigh := (hadmits.checkOverflow top byte).trans
    (if_pos ⟨hbyte, hlow, hhigh⟩)
  exceeds byte h := (hadmits.checkOverflow top byte).trans (if_neg h)
  minimal index byte prevByte hbyte hprev := checkMinimalSigned_eq index byte prevByte hbyte hprev
  widens index acc byte hindex hacc hbyte _ := signExtend_eq hw hshort hindex hacc hbyte
  outside group value rest hgroup _ h := fun hin =>
    signed_outside hgroup h ⟨by omega, by omega⟩
  closes below := by
    obtain ⟨byte, hbyte, hneeded, hfrom, hto⟩ := signed_closes below
    exact ⟨byte, hbyte, hneeded, by omega, by omega⟩

theorem u64_sound : u64.Sound unsigned 0 2 9 :=
  @unsigned_sound 64 9 2 (fun chunk => !(chunk > 1)) (by decide +kernel) (by decide) (by decide)

theorem u32_sound : u32.Sound unsigned 0 16 4 :=
  @unsigned_sound 32 4 16 (fun chunk => !(chunk > 0x0f)) (by decide +kernel) (by decide)
    (by decide)

theorem i64_sound : i64.Sound signed (-1) 1 9 :=
  @signed_sound 64 9 (-1) 1 (fun chunk => !(chunk != 0 && chunk != 0x7f)) (by decide +kernel)
    (by decide) (by decide) (by decide) (by decide)

theorem i32_sound : i32.Sound signed (-8) 8 4 :=
  @signed_sound 32 4 (-8) 8
    (fun chunk => !((chunk &&& 0x78) != 0x00 && (chunk &&& 0x78) != 0x78)) (by decide +kernel)
    (by decide) (by decide) (by decide) (by decide)

end Sound

section Reads

theorem reads_unsigned {w top : Nat} {high : Int} (hhigh : 128 ^ top * high = 2 ^ w) :
    Reads (fun value : BitVec w => (value.toNat : Int)) 0 high top where
  inside value := by
    have hlt : (value.toNat : Int) < 2 ^ w := by exact_mod_cast value.isLt
    unfold Window
    rw [Nat.sub_zero, hhigh]
    omega
  ofInt_read value := by rw [BitVec.ofInt_natCast, BitVec.ofNat_toNat, BitVec.setWidth_eq]
  read_ofInt value h := by
    unfold Window at h
    rw [Nat.sub_zero, hhigh, mul_zero] at h
    rw [BitVec.toNat_ofInt, Int.emod_eq_of_lt h.1 (by exact_mod_cast h.2), Int.toNat_of_nonneg h.1]

theorem reads_signed {w top : Nat} {high : Int} (hw : 0 < w)
    (hhigh : 128 ^ top * high = 2 ^ (w - 1)) :
    Reads (fun value : BitVec w => value.toInt) (-high) high top where
  inside value := by
    unfold Window
    rw [Nat.sub_zero, mul_neg, hhigh]
    exact ⟨value.le_toInt, value.toInt_lt⟩
  ofInt_read value := BitVec.ofInt_toInt
  read_ofInt value h := by
    unfold Window at h
    rw [Nat.sub_zero, mul_neg, hhigh] at h
    exact BitVec.toInt_ofInt_eq_self hw h.1 h.2

end Reads

theorem emitUnsignedGroups_nil_spelt {w : Nat} (value : BitVec w) :
    Spelt unsigned value.toNat (emitUnsignedGroups value []) := by
  obtain ⟨bytes, hbytes, hspelt⟩ := emitUnsignedGroups_spelt value []
  rw [hbytes]
  exact hspelt

theorem emitSignedGroups_nil_spelt {w : Nat} (hw : 8 ≤ w) (value : BitVec w) :
    Spelt signed value.toInt (emitSignedGroups hw value []) := by
  obtain ⟨bytes, hbytes, hspelt⟩ := emitSignedGroups_spelt hw value []
  rw [hbytes]
  exact hspelt

/-- No two byte strings name one integer, and no two integers one byte string. -/
theorem leb128_canonical :
    CanonicalPrefixCode (encodeU64 · []) decodeU64 ∧ CanonicalPrefixCode (encodeU32 · []) decodeU32 ∧
      CanonicalPrefixCode (encodeI64 · []) decodeI64 ∧
      CanonicalPrefixCode (encodeI32 · []) decodeI32 := by
  refine ⟨?_, ?_, ?_, ?_⟩
  · exact canonicalPrefixCode u64_sound (reads_unsigned (by decide)) emitUnsignedGroups_nil_spelt
  · exact canonicalPrefixCode u32_sound (reads_unsigned (by decide)) emitUnsignedGroups_nil_spelt
  · exact canonicalPrefixCode i64_sound (reads_signed (by decide) (by decide))
      (emitSignedGroups_nil_spelt (by decide))
  · exact canonicalPrefixCode i32_sound (@reads_signed 32 4 8 (by decide) (by decide))
      (emitSignedGroups_nil_spelt (by decide))

end LogicalWorks.Leb128
