import LogicalWorks.Lib.Bytes
import LogicalWorks.Lib.Sextets
import Mathlib.Algebra.Order.Ring.Nat
import Mathlib.Data.List.DropRight

/-! The base64 encoder and decoder. Text is the bytes of its characters. -/
namespace LogicalWorks.Base64

def alphabet : List UInt8 :=
  "ABCDEFGHIJKLMNOPQRSTUVWXYZabcdefghijklmnopqrstuvwxyz0123456789+/".toList.map fun letter =>
    UInt8.ofNat letter.toNat

/-- The character of a six-bit value; every index the encoder uses is below 64. -/
def character (sextet : UInt8) : UInt8 := alphabet.getD sextet.toNat 0

def equals : UInt8 := 0x3d

def encodeFirstPair (b0 : UInt8) (b1 : Option UInt8) (out : List UInt8) : List UInt8 :=
  let secondSextet :=
    match b1 with
    | some first => ((b0 &&& 0x03) <<< 4) ||| (first >>> 4)
    | none => (b0 &&& 0x03) <<< 4
  out ++ [character (b0 >>> 2)] ++ [character secondSextet]

def encodeThirdChar (b1 b2 : Option UInt8) (out : List UInt8) : List UInt8 :=
  match b1, b2 with
  | some first, some second => out ++ [character (((first &&& 0x0f) <<< 2) ||| (second >>> 6))]
  | some first, none => out ++ [character ((first &&& 0x0f) <<< 2)]
  | none, _ => out ++ [equals]

def encodeFourthChar (b2 : Option UInt8) (out : List UInt8) : List UInt8 :=
  match b2 with
  | some second => out ++ [character (second &&& 0x3f)]
  | none => out ++ [equals]

def encodeQuantum (b0 : UInt8) (b1 b2 : Option UInt8) (out : List UInt8) : List UInt8 :=
  encodeFourthChar b2 (encodeThirdChar b1 b2 (encodeFirstPair b0 b1 out))

def encodeFrom (out : List UInt8) : List UInt8 → List UInt8
  | b0 :: b1 :: b2 :: rest => encodeFrom (encodeQuantum b0 (some b1) (some b2) out) rest
  | first :: tail => encodeQuantum first tail[0]? tail[1]? out
  | [] => out

def encode (bytes : List UInt8) : List UInt8 := encodeFrom [] bytes

inductive DecodeError where
  | badLength (len place : Nat)
  | notInAlphabet (place : Nat) (byte : UInt8)
  | misplacedPadding (place : Nat)
  deriving DecidableEq, Repr

def DecodeError.place : DecodeError → Nat
  | .badLength _ place => place
  | .notInAlphabet place _ => place
  | .misplacedPadding place => place

def checkBase64Quantum (len : Nat) : Except DecodeError Unit :=
  if len % 4 ≠ 0 then throw (.badLength len len) else pure ()

def trailing (input : List UInt8) : Nat := (input.reverse.takeWhile (· == equals)).length

def inspectPadding (input : List UInt8) : Except DecodeError Nat :=
  let padding := trailing input
  if padding > 2 then throw (.misplacedPadding (input.length - padding)) else pure padding

def checkInteriorPadding (body : List UInt8) : Except DecodeError Unit :=
  match body.findIdx? (· == equals) with
  | some offset => throw (.misplacedPadding offset)
  | none => pure ()

def lowByte (value : BitVec 32) : UInt8 := UInt8.ofBitVec (value.setWidth 8)

def sextet (byte : UInt8) : Option UInt8 :=
  if 0x41 ≤ byte ∧ byte ≤ 0x5a then some (byte - 0x41)
  else if 0x61 ≤ byte ∧ byte ≤ 0x7a then some (byte - 0x61 + 26)
  else if 0x30 ≤ byte ∧ byte ≤ 0x39 then some (byte - 0x30 + 52)
  else if byte = 0x2b then some 62
  else if byte = 0x2f then some 63
  else none

structure Bits where
  accumulator : BitVec 32
  filled : Nat
  out : List UInt8

def Bits.push (bits : Bits) (value : UInt8) : Bits :=
  let accumulator := bits.accumulator <<< 6 ||| value.toBitVec.setWidth 32
  let filled := bits.filled + 6
  if filled ≥ 8 then
    { accumulator, filled := filled - 8, out := bits.out ++ [lowByte (accumulator >>> (filled - 8))] }
  else { accumulator, filled, out := bits.out }

def decodeBodyChunk (byte : UInt8) (index : Nat) (bits : Bits) : Except DecodeError Bits :=
  match sextet byte with
  | some value => pure (bits.push value)
  | none => throw (.notInAlphabet index byte)

def decodeChunks (index : Nat) (bits : Bits) : List UInt8 → Except DecodeError Bits
  | [] => pure bits
  | byte :: rest => do
    let bits ← decodeBodyChunk byte index bits
    decodeChunks (index + 1) bits rest

def decodeBodyBytes (body : List UInt8) : Except DecodeError (List UInt8) := do
  let bits ← decodeChunks 0 ⟨0, 0, []⟩ body
  if bits.filled > 0 ∧ bits.accumulator &&& (1#32 <<< bits.filled - 1#32) ≠ 0 then
    throw (.misplacedPadding body.length)
  else pure bits.out

def decode (input : List UInt8) : Except DecodeError (List UInt8) := do
  if input.isEmpty then pure []
  else
    checkBase64Quantum input.length
    let padding ← inspectPadding input
    let body := input.take (input.length - padding)
    checkInteriorPadding body
    decodeBodyBytes body

end LogicalWorks.Base64

/-! What is encoded decodes to itself, and nothing else decodes. -/
namespace LogicalWorks.Base64

section Alphabet

theorem alphabet_eq : alphabet =
    [0x41, 0x42, 0x43, 0x44, 0x45, 0x46, 0x47, 0x48, 0x49, 0x4a, 0x4b, 0x4c, 0x4d, 0x4e, 0x4f, 0x50,
      0x51, 0x52, 0x53, 0x54, 0x55, 0x56, 0x57, 0x58, 0x59, 0x5a, 0x61, 0x62, 0x63, 0x64, 0x65, 0x66,
      0x67, 0x68, 0x69, 0x6a, 0x6b, 0x6c, 0x6d, 0x6e, 0x6f, 0x70, 0x71, 0x72, 0x73, 0x74, 0x75, 0x76,
      0x77, 0x78, 0x79, 0x7a, 0x30, 0x31, 0x32, 0x33, 0x34, 0x35, 0x36, 0x37, 0x38, 0x39, 0x2b,
      0x2f] := by
  decide +kernel

theorem sextet_character {value : UInt8} (h : value.toNat < 64) :
    sextet (character value) = some value := by
  have hall : ∀ place : Fin 64, sextet (character (UInt8.ofNat place)) =
      some (UInt8.ofNat place) := by
    simp only [character, alphabet_eq]
    decide +kernel
  have hvalue := hall ⟨value.toNat, h⟩
  rwa [UInt8.ofNat_toNat] at hvalue

theorem character_run {byte first start : UInt8} {count : Nat} (hfirst : first ≤ byte)
    (hcount : byte.toNat - first.toNat < count)
    (hrun : ∀ place : Fin count, start.toNat + place.val < 64 ∧
      character (UInt8.ofNat (start.toNat + place.val)) =
        UInt8.ofNat (first.toNat + place.val)) :
    (byte - first + start).toNat < 64 ∧ character (byte - first + start) = byte := by
  obtain ⟨hlt, hcharacter⟩ := hrun ⟨byte.toNat - first.toNat, hcount⟩
  simp only at hlt hcharacter
  have hbyte := byte.toNat_lt
  have hle : first.toNat ≤ byte.toNat := hfirst
  have hvalue : byte - first + start = UInt8.ofNat (start.toNat + (byte.toNat - first.toNat)) := by
    apply UInt8.toNat_inj.mp
    rw [UInt8.toNat_add, UInt8.toNat_sub_of_le _ _ hfirst, UInt8.toNat_ofNat', Nat.add_comm]
  rw [hvalue, hcharacter, UInt8.toNat_ofNat', Nat.mod_eq_of_lt (by omega)]
  refine ⟨hlt, ?_⟩
  apply UInt8.toNat_inj.mp
  rw [UInt8.toNat_ofNat', Nat.add_sub_cancel' hle, Nat.mod_eq_of_lt hbyte]

theorem character_of_sextet {byte value : UInt8} (h : sextet byte = some value) :
    value.toNat < 64 ∧ character value = byte := by
  unfold sextet at h
  split at h
  · rename_i hrange
    have hlast : byte.toNat ≤ 0x5a := hrange.2
    cases h
    have hrun := @character_run byte 0x41 0 26 hrange.1 (by show byte.toNat - 65 < 26; omega) (by
      simp only [character, alphabet_eq]
      decide +kernel)
    rwa [UInt8.add_zero] at hrun
  split at h
  · rename_i hrange
    have hlast : byte.toNat ≤ 0x7a := hrange.2
    cases h
    refine @character_run byte 0x61 26 26 hrange.1 (by show byte.toNat - 97 < 26; omega) ?_
    simp only [character, alphabet_eq]
    decide +kernel
  split at h
  · rename_i hrange
    have hlast : byte.toNat ≤ 0x39 := hrange.2
    cases h
    refine @character_run byte 0x30 52 10 hrange.1 (by show byte.toNat - 48 < 10; omega) ?_
    simp only [character, alphabet_eq]
    decide +kernel
  split at h
  · rename_i hplus
    cases h
    subst hplus
    decide +kernel
  split at h
  · rename_i hslash
    cases h
    subst hslash
    decide +kernel
  · cases h

theorem sextet_equals : sextet equals = none := by decide

theorem character_ne_equals {value : UInt8} (h : value.toNat < 64) :
    character value ≠ equals := by
  intro heq
  have hsextet := sextet_character h
  rw [heq, sextet_equals] at hsextet
  cases hsextet

def characters (values : List Nat) : List UInt8 :=
  values.map fun value => character (UInt8.ofNat value)

theorem toNat_ofNat_of_lt {value : Nat} (h : value < 64) : (UInt8.ofNat value).toNat = value := by
  rw [UInt8.toNat_ofNat']
  omega

theorem equals_notMem_characters {values : List Nat} (h : ∀ value ∈ values, value < 64) :
    equals ∉ characters values := by
  intro hmem
  obtain ⟨value, hvalue, heq⟩ := List.mem_map.mp hmem
  have hlt := h value hvalue
  exact character_ne_equals (by rw [toNat_ofNat_of_lt hlt]; exact hlt) heq

end Alphabet

section Encoder

theorem first_sextet (byte : UInt8) : byte >>> 2 = UInt8.ofNat (byte.toNat / 4) :=
  Bytes.shiftRight_ofNat byte (by decide)

theorem second_sextet_high (byte : UInt8) :
    (byte &&& 0x03) <<< 4 = UInt8.ofNat (byte.toNat % 4 * 16) :=
  @Bytes.and_shiftLeft_ofNat byte 0x03 4 2 rfl (by decide)

theorem second_sextet_low (byte : UInt8) : byte >>> 4 = UInt8.ofNat (byte.toNat / 16) :=
  Bytes.shiftRight_ofNat byte (by decide)

theorem third_sextet_high (byte : UInt8) :
    (byte &&& 0x0f) <<< 2 = UInt8.ofNat (byte.toNat % 16 * 4) :=
  @Bytes.and_shiftLeft_ofNat byte 0x0f 2 4 rfl (by decide)

theorem third_sextet_low (byte : UInt8) : byte >>> 6 = UInt8.ofNat (byte.toNat / 64) :=
  Bytes.shiftRight_ofNat byte (by decide)

theorem fourth_sextet (byte : UInt8) : byte &&& 0x3f = UInt8.ofNat (byte.toNat % 64) :=
  @Bytes.and_ofNat byte 0x3f 6 rfl

theorem ofNat_or_ofNat {shift high low : Nat} (hhigh : high * 2 ^ shift < 256)
    (hlow : low < 2 ^ shift) (hsum : high * 2 ^ shift + low < 256) :
    UInt8.ofNat (high * 2 ^ shift) ||| UInt8.ofNat low =
      UInt8.ofNat (high * 2 ^ shift + low) := by
  have hlow' : low < 256 := by omega
  rw [← UInt8.toNat_inj, UInt8.toNat_or, UInt8.toNat_ofNat', UInt8.toNat_ofNat',
    UInt8.toNat_ofNat', Nat.mod_eq_of_lt hhigh, Nat.mod_eq_of_lt hlow', Nat.mod_eq_of_lt hsum,
    Nat.mul_comm, ← Nat.two_pow_add_eq_or_of_lt hlow]

theorem second_sextet (b0 b1 : UInt8) :
    ((b0 &&& 0x03) <<< 4) ||| (b1 >>> 4) = UInt8.ofNat (b0.toNat % 4 * 16 + b1.toNat / 16) := by
  have hrange : b1.toNat < 256 := b1.toNat_lt
  rw [second_sextet_high, second_sextet_low]
  exact @ofNat_or_ofNat 4 _ _ (by omega) (by omega) (by omega)

theorem third_sextet (b1 b2 : UInt8) :
    ((b1 &&& 0x0f) <<< 2) ||| (b2 >>> 6) = UInt8.ofNat (b1.toNat % 16 * 4 + b2.toNat / 64) := by
  have hrange : b2.toNat < 256 := b2.toNat_lt
  rw [third_sextet_high, third_sextet_low]
  exact @ofNat_or_ofNat 2 _ _ (by omega) (by omega) (by omega)

theorem encodeFrom_eq (out bytes : List UInt8) :
    encodeFrom out bytes = out ++ characters (sextets (bytes.map UInt8.toNat)) ++
      List.replicate ((3 - bytes.length % 3) % 3) equals := by
  fun_induction encodeFrom out bytes with
  | case1 out b0 b1 b2 rest ih =>
    have hpads : (3 - (b0 :: b1 :: b2 :: rest).length % 3) % 3 = (3 - rest.length % 3) % 3 := by
      simp only [List.length_cons]
      omega
    rw [ih, hpads]
    simp [encodeQuantum, encodeFirstPair, encodeThirdChar, encodeFourthChar, sextets, characters,
      first_sextet, second_sextet, third_sextet, fourth_sextet]
  | case2 out first tail hshort =>
    rcases tail with _ | ⟨second, _ | ⟨third, rest⟩⟩
    · simp [encodeQuantum, encodeFirstPair, encodeThirdChar, encodeFourthChar, sextets, characters,
        first_sextet, second_sextet_high]
    · simp [encodeQuantum, encodeFirstPair, encodeThirdChar, encodeFourthChar, sextets, characters,
        first_sextet, second_sextet, third_sextet_high]
    · exact absurd rfl (hshort second third rest)
  | case3 out => simp [sextets, characters]

end Encoder

section Accumulator

theorem toNat_push_accumulator (bits : Bits) {value : Nat} (hvalue : value < 64) :
    (bits.push (UInt8.ofNat value)).accumulator.toNat =
      bits.accumulator.toNat * 64 % 2 ^ 32 + value := by
  have haccumulator : (bits.push (UInt8.ofNat value)).accumulator =
      bits.accumulator <<< 6 ||| (UInt8.ofNat value).toBitVec.setWidth 32 := by
    unfold Bits.push
    dsimp only
    split <;> rfl
  have hlow : ((UInt8.ofNat value).toBitVec.setWidth 32).toNat = value := by
    rw [BitVec.toNat_setWidth]
    have h : (UInt8.ofNat value).toBitVec.toNat = value := toNat_ofNat_of_lt hvalue
    omega
  have hhigh : (bits.accumulator <<< 6).toNat = 2 ^ 6 * (bits.accumulator.toNat % 2 ^ 26) := by
    rw [BitVec.toNat_shiftLeft, Nat.shiftLeft_eq]
    omega
  rw [haccumulator, BitVec.toNat_or, hlow, hhigh, ← Nat.two_pow_add_eq_or_of_lt hvalue]
  omega

/-- The loop holds `count` bits that are not emitted yet, of value `pending`. -/
structure Pending (bits : Bits) (count pending : Nat) (out : List UInt8) : Prop where
  filled : bits.filled = count
  low : bits.accumulator.toNat % 2 ^ count = pending
  out : bits.out = out

theorem push_first {bits : Bits} {pending value : Nat} {out : List UInt8} (hvalue : value < 64)
    (h : Pending bits 0 pending out) : Pending (bits.push (UInt8.ofNat value)) 6 value out := by
  have haccumulator := toNat_push_accumulator bits hvalue
  refine ⟨?_, ?_, ?_⟩
  · unfold Bits.push
    simp [h.filled]
  · rw [haccumulator]
    omega
  · unfold Bits.push
    simp [h.filled, h.out]

theorem push_emits {bits : Bits} {count pending value : Nat} {out : List UInt8}
    (hvalue : value < 64) (hcount : count = 6 ∨ count = 4 ∨ count = 2)
    (h : Pending bits count pending out) :
    Pending (bits.push (UInt8.ofNat value)) (count - 2) (value % 2 ^ (count - 2))
      (out ++ [UInt8.ofNat (pending * 2 ^ (8 - count) + value / 2 ^ (count - 2))]) := by
  have haccumulator := toNat_push_accumulator bits hvalue
  have hlow := h.low
  have hsub : bits.filled + 6 - 8 = count - 2 := by
    rw [h.filled]
    omega
  have hfull : bits.filled + 6 ≥ 8 := by
    rw [h.filled]
    omega
  refine ⟨?_, ?_, ?_⟩
  · unfold Bits.push
    simp only [if_pos hfull, hsub]
  · rw [haccumulator]
    rcases hcount with rfl | rfl | rfl <;> omega
  · have hout : (bits.push (UInt8.ofNat value)).out =
        out ++ [lowByte ((bits.push (UInt8.ofNat value)).accumulator >>> (count - 2))] := by
      unfold Bits.push
      simp only [if_pos hfull, hsub, h.out]
    have hbyte : lowByte ((bits.push (UInt8.ofNat value)).accumulator >>> (count - 2)) =
        UInt8.ofNat ((bits.push (UInt8.ofNat value)).accumulator.toNat / 2 ^ (count - 2)) := by
      rw [← UInt8.toNat_inj, UInt8.toNat_ofNat', ← Nat.shiftRight_eq_div_pow,
        ← BitVec.toNat_ushiftRight]
      exact BitVec.toNat_setWidth 8 _
    rw [hout, hbyte, haccumulator, ← UInt8.ofNat_mod_size]
    congr 2
    rw [← UInt8.toNat_inj]
    simp only [UInt8.toNat_ofNat']
    rcases hcount with rfl | rfl | rfl <;> omega

def pendingBits (length : Nat) : Nat := (8 - length % 4 * 2) % 8

theorem foldl_push (values : List Nat) (h : ∀ value ∈ values, value < 64) {bits : Bits}
    {pending : Nat} {out : List UInt8} (hbits : Pending bits 0 pending out) :
    Pending (values.foldl (fun bits value => bits.push (UInt8.ofNat value)) bits)
      (pendingBits values.length) (leftover values) (out ++ (octets values).map UInt8.ofNat) := by
  fun_induction octets values generalizing bits pending out with
  | case1 first second third fourth rest ih =>
    simp only [List.forall_mem_cons] at h
    have hfirst := push_first h.1 hbits
    have hsecond := push_emits h.2.1 (.inl rfl) hfirst
    have hthird := push_emits h.2.2.1 (.inr (.inl rfl)) hsecond
    have hfourth := push_emits h.2.2.2.1 (.inr (.inr rfl)) hthird
    have hrest := ih h.2.2.2.2 hfourth
    have hcount : pendingBits (first :: second :: third :: fourth :: rest).length =
        pendingBits rest.length := by
      unfold pendingBits
      simp only [List.length_cons]
      omega
    rw [hcount]
    simpa [leftover] using hrest
  | case2 first second third =>
    simp only [List.forall_mem_cons] at h
    have hfirst := push_first h.1 hbits
    have hsecond := push_emits h.2.1 (.inl rfl) hfirst
    have hthird := push_emits h.2.2.1 (.inr (.inl rfl)) hsecond
    simpa [leftover, pendingBits] using hthird
  | case3 first second =>
    simp only [List.forall_mem_cons] at h
    have hfirst := push_first h.1 hbits
    have hsecond := push_emits h.2.1 (.inl rfl) hfirst
    exact hsecond
  | case4 values hfour hthree htwo =>
    rcases values with _ | ⟨first, _ | ⟨second, _ | ⟨third, _ | ⟨fourth, rest⟩⟩⟩⟩
    · exact ⟨hbits.filled, Nat.mod_one _, by simpa using hbits.out⟩
    · have hfirst := push_first (h first (List.mem_singleton_self _)) hbits
      exact ⟨hfirst.filled, hfirst.low, by simpa using hfirst.out⟩
    · exact absurd rfl (htwo first second)
    · exact absurd rfl (hthree first second third)
    · exact absurd rfl (hfour first second third fourth rest)

end Accumulator

section Decoder

theorem decodeChunks_characters (values : List Nat) (h : ∀ value ∈ values, value < 64)
    (index : Nat) (bits : Bits) :
    decodeChunks index bits (characters values) =
      .ok (values.foldl (fun bits value => bits.push (UInt8.ofNat value)) bits) := by
  induction values generalizing index bits with
  | nil => rfl
  | cons value rest ih =>
    simp only [List.forall_mem_cons] at h
    have hsextet : sextet (character (UInt8.ofNat value)) = some (UInt8.ofNat value) :=
      sextet_character (by rw [toNat_ofNat_of_lt h.1]; exact h.1)
    show decodeChunks index bits (character (UInt8.ofNat value) :: characters rest) = _
    rw [decodeChunks, decodeBodyChunk, hsextet]
    exact ih h.2 (index + 1) _

theorem characters_of_decodeChunks {index : Nat} {bits bits' : Bits} {body : List UInt8}
    (h : decodeChunks index bits body = .ok bits') :
    ∃ values, (∀ value ∈ values, value < 64) ∧ body = characters values := by
  induction body generalizing index bits with
  | nil => exact ⟨[], List.forall_mem_nil _, rfl⟩
  | cons byte rest ih =>
    rw [decodeChunks, decodeBodyChunk] at h
    cases hsextet : sextet byte with
    | none =>
      rw [hsextet] at h
      cases h
    | some value =>
      rw [hsextet] at h
      obtain ⟨values, hvalues, hrest⟩ := ih h
      obtain ⟨hlt, hbyte⟩ := character_of_sextet hsextet
      refine ⟨value.toNat :: values, List.forall_mem_cons.mpr ⟨hlt, hvalues⟩, ?_⟩
      rw [characters, List.map_cons, UInt8.ofNat_toNat, hbyte, hrest]
      rfl

theorem and_mask_eq_zero (accumulator : BitVec 32) {count : Nat} (h : count < 32) :
    accumulator &&& (1#32 <<< count - 1#32) = 0 ↔ accumulator.toNat % 2 ^ count = 0 := by
  have hpos : 0 < 2 ^ count := Nat.two_pow_pos count
  have hpow : 2 ^ count < 2 ^ 32 := Nat.pow_lt_pow_right (by decide) h
  have hmask : (1#32 <<< count - 1#32).toNat = 2 ^ count - 1 := by
    have hshift : (1#32 <<< count).toNat = 2 ^ count := by
      rw [BitVec.toNat_shiftLeft, Nat.shiftLeft_eq]
      exact (congrArg (· % 2 ^ 32) (Nat.one_mul _)).trans (Nat.mod_eq_of_lt hpow)
    rw [BitVec.toNat_sub, hshift]
    show (2 ^ 32 - 1 + 2 ^ count) % 2 ^ 32 = 2 ^ count - 1
    omega
  rw [← BitVec.toNat_inj, BitVec.toNat_and, hmask, Nat.and_two_pow_sub_one_eq_mod]
  exact Iff.rfl

theorem decodeBodyBytes_characters (values : List Nat) (h : ∀ value ∈ values, value < 64) :
    decodeBodyBytes (characters values) =
      if 0 < pendingBits values.length ∧ leftover values ≠ 0 then
        .error (.misplacedPadding values.length)
      else .ok ((octets values).map UInt8.ofNat) := by
  have hbits := @foldl_push values h ⟨0, 0, []⟩ 0 [] ⟨rfl, rfl, rfl⟩
  have hcount : pendingBits values.length < 32 := by
    unfold pendingBits
    omega
  have hlength : (characters values).length = values.length := List.length_map _
  unfold decodeBodyBytes
  rw [decodeChunks_characters values h]
  show (if _ ∧ _ then _ else _) = _
  rw [hbits.filled, hbits.out, hlength]
  refine if_congr (and_congr Iff.rfl (not_congr ?_)) rfl rfl
  rw [and_mask_eq_zero _ hcount, hbits.low]

theorem leftover_eq_zero {values : List Nat} (hlength : values.length % 4 = 0) :
    leftover values = 0 := by
  fun_induction leftover values with
  | case1 first second third fourth rest ih =>
    apply ih
    simp only [List.length_cons] at hlength
    omega
  | case2 first second third => cases hlength
  | case3 first second => cases hlength
  | case4 first => cases hlength
  | case5 => rfl

end Decoder

section Padding

def body (input : List UInt8) : List UInt8 := input.take (input.length - trailing input)

theorem body_append (input : List UInt8) :
    body input ++ List.replicate (trailing input) equals = input := by
  have hsplit : input = (input.reverse.dropWhile (· == equals)).reverse ++
      (input.reverse.takeWhile (· == equals)).reverse := by
    rw [← List.reverse_append, List.takeWhile_append_dropWhile, List.reverse_reverse]
  have hpadding : input.reverse.takeWhile (· == equals) =
      List.replicate (trailing input) equals := by
    rw [List.eq_replicate_iff]
    refine ⟨rfl, fun byte hbyte => ?_⟩
    exact beq_iff_eq.mp (@List.mem_takeWhile_imp _ (· == equals) _ _ hbyte)
  rw [hpadding, List.reverse_replicate] at hsplit
  have hlength := congrArg List.length hsplit
  rw [List.length_append, List.length_replicate] at hlength
  have hbody : body input = (input.reverse.dropWhile (· == equals)).reverse := by
    unfold body
    rw [hlength, Nat.add_sub_cancel]
    exact (congrArg _ hsplit).trans List.take_left
  rw [hbody]
  exact hsplit.symm

theorem trailing_append {values : List UInt8} (h : equals ∉ values) (count : Nat) :
    trailing (values ++ List.replicate count equals) = count := by
  have hnone : values.reverse.takeWhile (· == equals) = [] := by
    apply List.eq_nil_iff_forall_not_mem.mpr
    intro byte hbyte
    have heq : byte = equals :=
      beq_iff_eq.mp (@List.mem_takeWhile_imp _ (· == equals) _ _ hbyte)
    rw [heq] at hbyte
    exact h (List.mem_reverse.mp ((List.takeWhile_sublist _).mem hbyte))
  unfold trailing
  rw [List.reverse_append, List.reverse_replicate, List.takeWhile_append_of_pos, hnone,
    List.append_nil, List.length_replicate]
  intro byte hbyte
  rw [List.eq_of_mem_replicate hbyte, beq_self_eq_true]

theorem body_append_replicate {values : List UInt8} (h : equals ∉ values) (count : Nat) :
    body (values ++ List.replicate count equals) = values := by
  unfold body
  rw [trailing_append h, List.length_append, List.length_replicate, Nat.add_sub_cancel]
  exact List.take_left

theorem decode_eq {input : List UInt8} (hne : input ≠ []) :
    decode input =
      if input.length % 4 ≠ 0 then .error (.badLength input.length input.length)
      else if trailing input > 2 then
        .error (.misplacedPadding (input.length - trailing input))
      else (checkInteriorPadding (body input)).bind fun _ => decodeBodyBytes (body input) := by
  have hempty : input.isEmpty = false := by
    cases input with
    | nil => exact absurd rfl hne
    | cons byte rest => rfl
  unfold decode checkBase64Quantum inspectPadding
  rw [hempty]
  by_cases hquantum : input.length % 4 ≠ 0
  · simp only [if_pos hquantum]
    rfl
  · by_cases hpadding : trailing input > 2
    · simp only [if_neg hquantum, if_pos hpadding]
      rfl
    · simp only [if_neg hquantum, if_neg hpadding]
      rfl

theorem checkInteriorPadding_ok {body : List UInt8} (h : equals ∉ body) :
    checkInteriorPadding body = .ok () := by
  have hnone : body.findIdx? (· == equals) = none := by
    rw [List.findIdx?_eq_none_iff]
    intro byte hbyte
    exact beq_eq_false_iff_ne.mpr fun heq => h (heq ▸ hbyte)
  unfold checkInteriorPadding
  rw [hnone]
  rfl

end Padding

theorem map_toNat_lt (bytes : List UInt8) : ∀ value ∈ bytes.map UInt8.toNat, value < 256 := by
  intro value hvalue
  obtain ⟨byte, -, rfl⟩ := List.mem_map.mp hvalue
  exact byte.toNat_lt

theorem decode_encode (bytes : List UInt8) : decode (encode bytes) = .ok bytes := by
  rcases eq_or_ne bytes [] with rfl | hne
  · rfl
  have hvalues := sextets_lt _ (map_toNat_lt bytes)
  have hnone := equals_notMem_characters hvalues
  have hencode : encode bytes = characters (sextets (bytes.map UInt8.toNat)) ++
      List.replicate ((3 - bytes.length % 3) % 3) equals := encodeFrom_eq [] bytes
  have hlength := length_sextets (bytes.map UInt8.toNat)
  rw [List.length_map] at hlength
  have htotal : (encode bytes).length = (bytes.length + 2) / 3 * 4 := by
    rw [hencode, List.length_append, List.length_replicate, characters, List.length_map, hlength]
  have hpos : 0 < bytes.length := List.length_pos_iff.mpr hne
  have hsome : encode bytes ≠ [] := by
    apply List.ne_nil_of_length_pos
    omega
  have htrailing : trailing (encode bytes) = (3 - bytes.length % 3) % 3 := by
    rw [hencode, trailing_append hnone]
  have hbody : body (encode bytes) = characters (sextets (bytes.map UInt8.toNat)) := by
    rw [hencode, body_append_replicate hnone]
  rw [decode_eq hsome, if_neg (by omega), htrailing, if_neg (by omega), hbody,
    checkInteriorPadding_ok hnone]
  show decodeBodyBytes _ = _
  rw [decodeBodyBytes_characters _ hvalues, if_neg fun h => h.2 (leftover_sextets _),
    octets_sextets _ (map_toNat_lt bytes), List.map_map]
  exact congrArg Except.ok ((List.map_congr_left fun byte _ => UInt8.ofNat_toNat).trans
    (List.map_id bytes))

theorem encode_of_decode {input bytes : List UInt8} (h : decode input = .ok bytes) :
    encode bytes = input := by
  rcases eq_or_ne input [] with rfl | hne
  · cases h
    rfl
  rw [decode_eq hne] at h
  split at h
  · cases h
  next hquantum =>
  split at h
  · cases h
  next hpadding =>
  cases hinterior : checkInteriorPadding (body input) with
  | error cause =>
    rw [hinterior] at h
    cases h
  | ok value =>
    rw [hinterior] at h
    replace h : decodeBodyBytes (body input) = .ok bytes := h
    obtain ⟨values, hvalues, hbody⟩ : ∃ values, (∀ value ∈ values, value < 64) ∧
        body input = characters values := by
      unfold decodeBodyBytes at h
      cases hchunks : decodeChunks 0 ⟨0, 0, []⟩ (body input) with
      | error cause =>
        rw [hchunks] at h
        cases h
      | ok bits => exact characters_of_decodeChunks hchunks
    have hinput := body_append input
    have hlength := congrArg List.length hinput
    rw [List.length_append, List.length_replicate, hbody, characters, List.length_map] at hlength
    rw [hbody, decodeBodyBytes_characters values hvalues] at h
    split at h
    · cases h
    next hleft =>
      have hzero : leftover values = 0 := by
        by_cases hwhole : values.length % 4 = 0
        · exact leftover_eq_zero hwhole
        · have hpending : 0 < pendingBits values.length := by
            unfold pendingBits
            omega
          by_contra hne
          exact hleft ⟨hpending, hne⟩
      cases h
      have hmap : ((octets values).map UInt8.ofNat).map UInt8.toNat = octets values := by
        rw [List.map_map]
        refine (List.map_congr_left fun value hvalue => ?_).trans (List.map_id _)
        have hlt := octets_lt values hvalues value hvalue
        show (UInt8.ofNat value).toNat = value
        rw [UInt8.toNat_ofNat']
        omega
      have hpads : (3 - ((octets values).map UInt8.ofNat).length % 3) % 3 = trailing input := by
        have hrest : values.length % 4 = 0 ∨ values.length % 4 = 2 ∨ values.length % 4 = 3 := by
          omega
        rw [List.length_map, length_octets]
        rcases hrest with hrest | hrest | hrest <;> omega
      rw [encode, encodeFrom_eq, hmap, hpads,
        sextets_octets values hvalues (by omega) hzero, ← hbody]
      exact hinput

end LogicalWorks.Base64
