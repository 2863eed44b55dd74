import LogicalWorks.Uuid.Model

/-! Text and keys of identifiers are read back, and are ordered as the bytes. -/
namespace LogicalWorks

namespace Hex

theorem high_nibble (byte : UInt8) : byte >>> 4 = UInt8.ofNat (byte.toNat / 16) :=
  Bytes.shiftRight_ofNat byte (by decide)

theorem low_nibble (byte : UInt8) : byte &&& 0x0f = UInt8.ofNat (byte.toNat % 16) :=
  @Bytes.and_ofNat byte 0x0f 4 rfl

theorem digit_lt {nibble nibble' : Nat} (h : nibble < nibble') (hto : nibble' < 16) :
    digit (UInt8.ofNat nibble) < digit (UInt8.ofNat nibble') := by
  have hall : ∀ nibble nibble' : Fin 16, nibble.val < nibble'.val →
      digit (UInt8.ofNat nibble.val) < digit (UInt8.ofNat nibble'.val) := by
    decide +kernel
  exact hall ⟨nibble, Nat.lt_trans h hto⟩ ⟨nibble', hto⟩ h

theorem digits_lt {byte byte' : UInt8} (h : byte < byte') :
    [digit (byte >>> 4), digit (byte &&& 0x0f)] <
      [digit (byte' >>> 4), digit (byte' &&& 0x0f)] := by
  rw [UInt8.lt_iff_toNat_lt] at h
  have hrange : byte'.toNat < 256 := byte'.toNat_lt
  rw [high_nibble, high_nibble, low_nibble, low_nibble, List.cons_lt_cons_iff,
    List.cons_lt_cons_iff]
  rcases Nat.lt_or_ge (byte.toNat / 16) (byte'.toNat / 16) with hhigh | hhigh
  · exact .inl (digit_lt hhigh (by omega))
  · have heq : byte.toNat / 16 = byte'.toNat / 16 := by omega
    exact .inr ⟨by rw [heq], .inl (digit_lt (by omega) (by omega))⟩

theorem decodePair_digits (byte : UInt8) (offset : Nat) :
    decodePair (digit (byte >>> 4)) (digit (byte &&& 0x0f)) offset = .ok byte := by
  have hdigit : ∀ nibble : Fin 16, decodeNibble (digit (UInt8.ofNat nibble)) =
      some (UInt8.ofNat nibble) := by
    decide +kernel
  have hlt := byte.toNat_lt
  have hhigh : decodeNibble (digit (byte >>> 4)) = some (byte >>> 4) := by
    rw [high_nibble]
    exact hdigit ⟨byte.toNat / 16, by omega⟩
  have hlow : decodeNibble (digit (byte &&& 0x0f)) = some (byte &&& 0x0f) := by
    rw [low_nibble]
    exact hdigit ⟨byte.toNat % 16, by omega⟩
  have hjoin : ((byte >>> 4) <<< 4) ||| (byte &&& 0x0f) = byte := by
    apply UInt8.toNat_inj.mp
    rw [UInt8.toNat_or, UInt8.toNat_shiftLeft, high_nibble, low_nibble, UInt8.toNat_ofNat',
      UInt8.toNat_ofNat', Nat.shiftLeft_eq]
    show byte.toNat / 16 % 256 * 16 % 256 ||| byte.toNat % 16 % 256 = byte.toNat
    rw [show byte.toNat / 16 % 256 * 16 % 256 = 2 ^ 4 * (byte.toNat / 16) by omega,
      show byte.toNat % 16 % 256 = byte.toNat % 16 by omega,
      ← Nat.two_pow_add_eq_or_of_lt (show byte.toNat % 16 < 2 ^ 4 by omega)]
    omega
  unfold decodePair
  rw [hhigh, hlow]
  exact congrArg Except.ok hjoin

theorem decodePairs_writeLowercase (bytes : List UInt8) (offset : Nat) :
    decodePairs offset (writeLowercase bytes) = .ok bytes := by
  induction bytes generalizing offset with
  | nil => rfl
  | cons byte rest ih =>
    show decodePairs offset (digit (byte >>> 4) :: digit (byte &&& 0x0f) :: writeLowercase rest) = _
    rw [decodePairs, decodePair_digits, ih]
    rfl

theorem length_writeLowercase (bytes : List UInt8) :
    (writeLowercase bytes).length = 2 * bytes.length := by
  induction bytes with
  | nil => rfl
  | cons byte rest ih =>
    show (writeLowercase rest).length + 2 = _
    rw [ih, List.length_cons]
    omega

theorem decodeInto_writeLowercase (bytes : List UInt8) :
    decodeInto (writeLowercase bytes) bytes.length = .ok bytes := by
  have hlength := length_writeLowercase bytes
  have heven : (writeLowercase bytes).length % 2 = 0 := by omega
  have hexpected : ((writeLowercase bytes).length + 1) / 2 = bytes.length := by omega
  unfold decodeInto checkEvenLength
  rw [if_neg (not_not.mpr heven), hexpected]
  show (if bytes.length ≠ bytes.length then _ else _) = _
  rw [if_neg (not_not.mpr rfl), decodePairs_writeLowercase]

end Hex

namespace Uuid

open Hex

def writeByte (place : Nat) (byte : UInt8) : List UInt8 :=
  (if place ∈ [4, 6, 8, 10] then [hyphen] else []) ++ [digit (byte >>> 4), digit (byte &&& 0x0f)]

theorem display_eq (id : Uuid) :
    id.display = (id.raw.mapIdx fun place byte => writeByte (0 + place) byte).flatten := by
  obtain ⟨raw, size⟩ := id
  match raw, size with
  | [b0, b1, b2, b3, b4, b5, b6, b7, b8, b9, b10, b11, b12, b13, b14, b15], _ =>
    simp [display, writeLowercase, writeByte]

theorem display_lt {id id' : Uuid} (h : id.raw < id'.raw) : id.display < id'.display := by
  rw [display_eq, display_eq]
  refine writtenFrom_lt ?_ ?_ h (id.size.trans id'.size.symm) 0
  · intro place byte byte' hbyte
    exact List.append_left_lt (digits_lt hbyte)
  · intro place byte byte'
    unfold writeByte
    rw [List.length_append, List.length_append]
    rfl

theorem packTuple_lt {id id' : Uuid} (h : id.raw < id'.raw) (key : List UInt8) :
    id.packTuple key < id'.packTuple key := List.append_left_lt h

theorem unpackTuple_packTuple (id : Uuid) (rest : List UInt8) :
    unpackTuple (id.packTuple [] ++ rest) = .ok (id, rest) := by
  obtain ⟨raw, size⟩ := id
  have htake : (raw ++ rest).take 16 = raw := by rw [← size, List.take_left]
  have hdrop : (raw ++ rest).drop 16 = rest := by rw [← size, List.drop_left]
  show unpackTuple (uuidCode :: (raw ++ rest)) = _
  unfold unpackTuple
  simp only [ne_eq, not_true_eq_false, if_false]
  rw [dif_pos (by rw [htake]; exact size)]
  simp only [htake, hdrop]
  rfl

theorem parseUuidGroup_writeLowercase {text group before after : List UInt8} {cursor : Nat}
    (htext : text = before ++ writeLowercase group ++ after) (hcursor : before.length = cursor) :
    parseUuidGroup text cursor (2 * group.length) group.length = .ok group := by
  have hslice : (text.drop cursor).take (2 * group.length) = writeLowercase group := by
    rw [htext, List.append_assoc, ← hcursor, List.drop_left, ← length_writeLowercase,
      List.take_left]
  unfold parseUuidGroup
  rw [hslice, decodeInto_writeLowercase]
  rfl

theorem checkHyphen_ok {text before after : List UInt8} {cursor : Nat}
    (htext : text = before ++ [hyphen] ++ after) (hcursor : before.length = cursor) :
    checkHyphen text cursor = .ok () := by
  have hget : text[cursor]? = some hyphen := by
    rw [htext, List.append_assoc, ← hcursor, List.getElem?_append_right (Nat.le_refl _),
      Nat.sub_self]
    rfl
  unfold checkHyphen
  rw [hget, if_neg (not_not.mpr rfl)]
  rfl

theorem parseGroupsFrom_group {text group before after : List UInt8} {groupIndex cursor : Nat}
    (htext : text = before ++ [hyphen] ++ writeLowercase group ++ after)
    (hcursor : before.length = cursor) (hindex : 0 < groupIndex) (outOffset : Nat) (id : Uuid)
    (rest : List (Nat × Nat)) :
    parseGroupsFrom text groupIndex outOffset cursor id
        ((2 * group.length, group.length) :: rest) =
      parseGroupsFrom text (groupIndex + 1) (outOffset + group.length)
        (cursor + 1 + 2 * group.length) (id.write outOffset group) rest := by
  have hhyphen : checkHyphen text cursor = .ok () := by
    rw [List.append_assoc] at htext
    exact checkHyphen_ok htext hcursor
  have hgroup : parseUuidGroup text (cursor + 1) (2 * group.length) group.length = .ok group := by
    apply parseUuidGroup_writeLowercase htext
    rw [List.length_append, hcursor]
    rfl
  rw [parseGroupsFrom, if_pos hindex, hhyphen]
  show (parseUuidGroup text (cursor + 1) _ _ >>= _) = _
  rw [hgroup]
  rfl

theorem parse_display (id : Uuid) : parse id.display = .ok id := by
  obtain ⟨raw, size⟩ := id
  match raw, size with
  | [b0, b1, b2, b3, b4, b5, b6, b7, b8, b9, b10, b11, b12, b13, b14, b15], size =>
    have hparse (text : List UInt8) (htext : text = writeLowercase [b0, b1, b2, b3] ++ [hyphen] ++
        writeLowercase [b4, b5] ++ ([hyphen] ++ writeLowercase [b6, b7] ++ ([hyphen] ++
        writeLowercase [b8, b9] ++ ([hyphen] ++ writeLowercase [b10, b11, b12, b13, b14, b15])))) :
        parse text = .ok ⟨_, size⟩ := by
      have hlength : text.length = 36 := by
        rw [htext]
        simp only [List.length_append, length_writeLowercase, List.length_cons, List.length_nil]
      have hfirst : parseUuidGroup text 0 8 4 = .ok [b0, b1, b2, b3] := by
        apply @parseUuidGroup_writeLowercase text [b0, b1, b2, b3] [] ([hyphen] ++
          writeLowercase [b4, b5] ++ ([hyphen] ++ writeLowercase [b6, b7] ++ ([hyphen] ++
          writeLowercase [b8, b9] ++ ([hyphen] ++ writeLowercase [b10, b11, b12, b13, b14, b15]))))
          0 ?_ rfl
        rw [htext]
        simp only [List.append_assoc, List.nil_append]
      have hsecond := @parseGroupsFrom_group text [b4, b5] (writeLowercase [b0, b1, b2, b3])
        ([hyphen] ++ writeLowercase [b6, b7] ++ ([hyphen] ++ writeLowercase [b8, b9] ++ ([hyphen] ++
        writeLowercase [b10, b11, b12, b13, b14, b15]))) 1 8 htext rfl Nat.zero_lt_one
      have hthird := @parseGroupsFrom_group text [b6, b7] (writeLowercase [b0, b1, b2, b3] ++
        [hyphen] ++ writeLowercase [b4, b5]) ([hyphen] ++ writeLowercase [b8, b9] ++ ([hyphen] ++
        writeLowercase [b10, b11, b12, b13, b14, b15])) 2 13
        (by rw [htext]; simp only [List.append_assoc]) rfl Nat.zero_lt_two
      have hfourth := @parseGroupsFrom_group text [b8, b9] (writeLowercase [b0, b1, b2, b3] ++
        [hyphen] ++ writeLowercase [b4, b5] ++ [hyphen] ++ writeLowercase [b6, b7]) ([hyphen] ++
        writeLowercase [b10, b11, b12, b13, b14, b15]) 3 18
        (by rw [htext]; simp only [List.append_assoc]) rfl (by decide)
      have hfifth := @parseGroupsFrom_group text [b10, b11, b12, b13, b14, b15]
        (writeLowercase [b0, b1, b2, b3] ++ [hyphen] ++ writeLowercase [b4, b5] ++ [hyphen] ++
        writeLowercase [b6, b7] ++ [hyphen] ++ writeLowercase [b8, b9]) [] 4 23
        (by rw [htext]; simp only [List.append_assoc, List.append_nil]) rfl (by decide)
      unfold parse checkUuidLength groups
      rw [hlength, if_neg (not_not.mpr rfl), parseGroupsFrom]
      show (parseUuidGroup text 0 8 4 >>= _) = _
      rw [hfirst]
      refine (hsecond 4 _ _).trans ((hthird 6 _ _).trans ((hfourth 8 _ _).trans
        ((hfifth 10 _ _).trans ?_)))
      rfl
    refine hparse _ ?_
    simp [display, writeLowercase]

end Uuid

end LogicalWorks
