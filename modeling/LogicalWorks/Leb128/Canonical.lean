import LogicalWorks.Leb128.Encode
import Mathlib.Tactic.Linarith

/-! The decoders of the codec: one loop over the input, with the checks of a width. -/
namespace LogicalWorks.Leb128

open Groups

inductive DecodeError where
  | unexpectedEnd (place : Nat)
  | overflow (place : Nat)
  | nonMinimal (place : Nat)
  deriving DecidableEq, Repr

def usizeMax : Nat := 18446744073709551615

def saturatingMul (a b : Nat) : Nat := min (a * b) usizeMax

def saturatingAdd (a b : Nat) : Nat := min (a + b) usizeMax

structure Width (w : Nat) where
  checkOverflow (shift : Nat) (chunk : BitVec w) (byte : UInt8) (index : Nat) :
    Except DecodeError Unit
  checkMinimal (index : Nat) (byte prevByte : UInt8) : Except DecodeError Unit
  widen (rawVal : BitVec w) (shift : Nat) (byte : UInt8) : BitVec w

/-- The last group has room for few payloads and must end the sequence. -/
def checkOverflow {w : Nat} (last : Nat) (fits : BitVec w → Bool) (shift : Nat)
    (chunk : BitVec w) (byte : UInt8) (index : Nat) : Except DecodeError Unit :=
  if (shift == last && (!fits chunk || byte &&& 0x80 != 0)) || shift > last then
    throw (.overflow index)
  else pure ()

def checkMinimalUnsigned (index : Nat) (byte : UInt8) : Except DecodeError Unit :=
  if index > 0 && byte == 0x00 then throw (.nonMinimal index) else pure ()

def checkMinimalSigned (index : Nat) (byte prevByte : UInt8) : Except DecodeError Unit :=
  if index > 0 then
    let prevSign := prevByte &&& 0x40 != 0
    if (!prevSign && byte == 0x00) || (prevSign && byte == 0x7f) then throw (.nonMinimal index)
    else pure ()
  else pure ()

def signExtend {w : Nat} (last : Nat) (rawVal : BitVec w) (shift : Nat) (byte : UInt8) :
    BitVec w :=
  if shift < last && byte &&& 0x40 != 0 then
    rawVal ||| (BitVec.allOnes w) <<< saturatingAdd shift 7
  else rawVal

def checkOverflowU64 := @checkOverflow 64 63 fun chunk => !(chunk > 1)

def checkOverflowU32 := @checkOverflow 32 28 fun chunk => !(chunk > 0x0f)

def checkOverflowI64 := @checkOverflow 64 63 fun chunk => !(chunk != 0 && chunk != 0x7f)

def checkOverflowI32 := @checkOverflow 32 28 fun chunk =>
  !((chunk &&& 0x78) != 0x00 && (chunk &&& 0x78) != 0x78)

def checkMinimalU64 := checkMinimalUnsigned

def checkMinimalU32 := checkMinimalUnsigned

def checkMinimalI64 := checkMinimalSigned

def checkMinimalI32 := checkMinimalSigned

def signExtendI64 := @signExtend 64 63

def signExtendI32 := @signExtend 32 28

def u64 : Width 64 where
  checkOverflow := checkOverflowU64
  checkMinimal index byte _ := checkMinimalU64 index byte
  widen rawVal _ _ := rawVal

def u32 : Width 32 where
  checkOverflow := checkOverflowU32
  checkMinimal index byte _ := checkMinimalU32 index byte
  widen rawVal _ _ := rawVal

def i64 : Width 64 where
  checkOverflow := checkOverflowI64
  checkMinimal := checkMinimalI64
  widen := signExtendI64

def i32 : Width 32 where
  checkOverflow := checkOverflowI32
  checkMinimal := checkMinimalI32
  widen := signExtendI32

def Width.decodeByte {w : Nat} (width : Width w) (byte : UInt8) (index shift : Nat)
    (prevByte : UInt8) (result : BitVec w) :
    Except DecodeError (BitVec w × Option (BitVec w × Nat)) := do
  let chunk := (byte &&& 0x7f).toBitVec.setWidth w
  width.checkOverflow shift chunk byte index
  let result := result ||| chunk <<< shift
  if byte &&& 0x80 = 0 then
    width.checkMinimal index byte prevByte
    pure (result, some (width.widen result shift byte, saturatingAdd index 1))
  else pure (result, none)

def Width.decodeFrom {w : Nat} (width : Width w) (index : Nat) (prevByte : UInt8)
    (result : BitVec w) : List UInt8 → Except DecodeError (BitVec w × Nat)
  | [] => throw (.unexpectedEnd index)
  | byte :: rest => do
    let shift := saturatingMul index 7
    let (result, found) ← width.decodeByte byte index shift prevByte result
    match found with
    | some answer => pure answer
    | none => width.decodeFrom (index + 1) byte result rest

def Width.decode {w : Nat} (width : Width w) (input : List UInt8) :
    Except DecodeError (BitVec w × Nat) :=
  width.decodeFrom 0 0 0 input

def decodeU64 := u64.decode

def decodeU32 := u32.decode

def decodeI64 := i64.decode

def decodeI32 := i32.decode

example : decodeU64 [0xe5, 0x8e, 0x26, 0x01] = .ok (624485, 3) := by decide

example : decodeI32 [0xff, 0x7f] = .error (.nonMinimal 1) := by decide

end LogicalWorks.Leb128

/-! What a width has to check for its decoder to read the spellings of its integers and nothing
else, and that it then does. -/
namespace LogicalWorks.Leb128

open Groups

/-- The values that still fit a width when `index` groups have been read; the last group has room
for those from `low` to `high`. -/
def Window (low high : Int) (top index : Nat) (value : Int) : Prop :=
  128 ^ (top - index) * low ≤ value ∧ value < 128 ^ (top - index) * high

theorem window_top (low high : Int) (top : Nat) (value : Int) :
    Window low high top top value ↔ low ≤ value ∧ value < high := by
  unfold Window
  rw [Nat.sub_self, pow_zero, one_mul, one_mul]

theorem window_succ {low high : Int} {top index group : Nat} (hindex : index < top)
    (hgroup : group < 128) (value : Int) :
    Window low high top index (group + 128 * value) ↔ Window low high top (index + 1) value := by
  have hexponent : top - index = (top - (index + 1)) + 1 := by omega
  unfold Window
  rw [hexponent, pow_succ, mul_right_comm _ 128 low, mul_right_comm _ 128 high]
  omega

theorem window_of_top {low high : Int} {top index : Nat} (hlow : low ≤ 0)
    (hhigh : 0 ≤ high) {value : Int} (h : low ≤ value ∧ value < high) :
    Window low high top index value := by
  have hpow : (1 : Int) ≤ 128 ^ (top - index) := one_le_pow₀ (by decide)
  unfold Window
  constructor
  · nlinarith
  · nlinarith

structure Width.Sound {w : Nat} (width : Width w) (carry : Nat → Int) (low high : Int)
    (top : Nat) : Prop where
  settled : Settled carry
  carries (group : Nat) : low ≤ carry group ∧ carry group < high
  low_nonpos : low ≤ 0
  high_nonneg : 0 ≤ high
  short : top ≤ 9
  below (index : Nat) (byte : UInt8) : index < top →
    width.checkOverflow (7 * index) ((byte &&& 0x7f).toBitVec.setWidth w) byte index = .ok ()
  fits (byte : UInt8) : byte.toNat < 128 → low ≤ lastValue carry byte.toNat →
    lastValue carry byte.toNat < high →
    width.checkOverflow (7 * top) ((byte &&& 0x7f).toBitVec.setWidth w) byte top = .ok ()
  exceeds (byte : UInt8) :
    ¬ (byte.toNat < 128 ∧ low ≤ lastValue carry byte.toNat ∧
      lastValue carry byte.toNat < high) →
    width.checkOverflow (7 * top) ((byte &&& 0x7f).toBitVec.setWidth w) byte top =
      .error (.overflow top)
  minimal (index : Nat) (byte prevByte : UInt8) : byte.toNat < 128 →
    (0 < index → 128 ≤ prevByte.toNat) →
    width.checkMinimal index byte prevByte =
      if 0 < index ∧ lastValue carry byte.toNat = carry (prevByte.toNat - 128) then
        .error (.nonMinimal index)
      else .ok ()
  widens (index acc : Nat) (byte : UInt8) : index ≤ top → acc < 128 ^ index →
    byte.toNat < 128 → Window low high top index (lastValue carry byte.toNat) →
    width.widen (BitVec.ofNat w (acc + 128 ^ index * byte.toNat)) (7 * index) byte =
      BitVec.ofInt w (acc + 128 ^ index * lastValue carry byte.toNat)
  outside (group : Nat) (value : Int) (rest : List UInt8) : group < 128 →
    Spelt carry value rest → value ≠ carry group →
    ¬ (low ≤ group + 128 * value ∧ group + 128 * value < high)
  closes (below : Nat) : ∃ byte : UInt8, byte.toNat < 128 ∧
    lastValue carry byte.toNat ≠ carry below ∧ low ≤ lastValue carry byte.toNat ∧
    lastValue carry byte.toNat < high

section Loop

variable {w : Nat} {width : Width w} {carry : Nat → Int} {low high : Int} {top : Nat}

theorem accumulates (index acc : Nat) (byte : UInt8) (hacc : acc < 128 ^ index) :
    (BitVec.ofNat w acc ||| ((byte &&& 0x7f).toBitVec.setWidth w) <<< (7 * index)) =
      BitVec.ofNat w (acc + 128 ^ index * (byte.toNat % 128)) := by
  have hchunk : (byte &&& 0x7f).toBitVec.setWidth w = BitVec.ofNat w (byte.toNat % 128) := by
    apply BitVec.eq_of_toNat_eq
    rw [BitVec.toNat_setWidth, BitVec.toNat_ofNat]
    exact congrArg (· % 2 ^ w) (toNat_and_low byte)
  have hpow : (128 : Nat) ^ index = 2 ^ (7 * index) := pow_mul 2 7 index ▸ rfl
  have hor : acc + 128 ^ index * (byte.toNat % 128) =
      acc ||| (byte.toNat % 128) <<< (7 * index) := by
    rw [Nat.or_comm, ← Nat.shiftLeft_add_eq_or_of_lt (hpow ▸ hacc), Nat.shiftLeft_eq, hpow,
      Nat.mul_comm, Nat.add_comm]
  rw [hchunk, hor, BitVec.ofNat_or]
  congr 1
  apply BitVec.eq_of_toNat_eq
  rw [BitVec.toNat_shiftLeft, BitVec.toNat_ofNat, BitVec.toNat_ofNat, Nat.shiftLeft_eq,
    Nat.shiftLeft_eq, Nat.mod_mul_mod]

theorem Width.Sound.checks (hsound : width.Sound carry low high top) {index : Nat} {byte : UInt8}
    (hindex : index ≤ top) (hbyte : byte.toNat < 128)
    (hwindow : Window low high top index (lastValue carry byte.toNat)) :
    width.checkOverflow (7 * index) ((byte &&& 0x7f).toBitVec.setWidth w) byte index = .ok () := by
  rcases Nat.lt_or_eq_of_le hindex with hlt | rfl
  · exact hsound.below index byte hlt
  · rw [window_top] at hwindow
    exact hsound.fits byte hbyte hwindow.1 hwindow.2

theorem decodeByte_last (hsound : width.Sound carry low high top) {index acc : Nat}
    {byte prevByte : UInt8} (hindex : index ≤ top) (hacc : acc < 128 ^ index)
    (hprev : 0 < index → 128 ≤ prevByte.toNat) (hbyte : byte.toNat < 128)
    (hwindow : Window low high top index (lastValue carry byte.toNat)) :
    width.decodeByte byte index (7 * index) prevByte (BitVec.ofNat w acc) =
      if 0 < index ∧ lastValue carry byte.toNat = carry (prevByte.toNat - 128) then
        .error (.nonMinimal index)
      else .ok (BitVec.ofNat w (acc + 128 ^ index * byte.toNat),
        some (BitVec.ofInt w (acc + 128 ^ index * lastValue carry byte.toNat), index + 1)) := by
  have hshort := hsound.short
  have hsaturating : saturatingAdd index 1 = index + 1 := by
    unfold saturatingAdd usizeMax
    omega
  have hresult := accumulates (w := w) index acc byte hacc
  rw [Nat.mod_eq_of_lt hbyte] at hresult
  have hmore := (and_more_eq_zero byte).mpr hbyte
  unfold Width.decodeByte
  dsimp only
  rw [hsound.checks hindex hbyte hwindow]
  simp only [hmore, if_true, hsound.minimal index byte prevByte hbyte hprev, hsaturating, hresult,
    hsound.widens index acc byte hindex hacc hbyte hwindow]
  split <;> rfl

theorem decodeByte_more (hsound : width.Sound carry low high top) {index acc : Nat}
    {byte : UInt8} (prevByte : UInt8) (hindex : index < top) (hacc : acc < 128 ^ index)
    (hbyte : 128 ≤ byte.toNat) :
    width.decodeByte byte index (7 * index) prevByte (BitVec.ofNat w acc) =
      .ok (BitVec.ofNat w (acc + 128 ^ index * (byte.toNat - 128)), none) := by
  have hrange : byte.toNat < 256 := byte.toNat_lt
  have hgroup : byte.toNat % 128 = byte.toNat - 128 := by omega
  have hresult := accumulates (w := w) index acc byte hacc
  rw [hgroup] at hresult
  have hmore : ¬ byte &&& 0x80 = 0 := by
    rw [and_more_eq_zero]
    omega
  unfold Width.decodeByte
  dsimp only
  rw [hsound.below index byte hindex]
  simp only [hmore, if_false, hresult]
  rfl

theorem decodeByte_exceeds (hsound : width.Sound carry low high top) {byte : UInt8}
    (prevByte : UInt8) (result : BitVec w)
    (h : ¬ (byte.toNat < 128 ∧ low ≤ lastValue carry byte.toNat ∧
      lastValue carry byte.toNat < high)) :
    width.decodeByte byte top (7 * top) prevByte result = .error (.overflow top) := by
  unfold Width.decodeByte
  dsimp only
  rw [hsound.exceeds byte h]
  rfl

theorem shift_eq (hsound : width.Sound carry low high top) {index : Nat} (hindex : index ≤ top) :
    saturatingMul index 7 = 7 * index := by
  have hshort := hsound.short
  unfold saturatingMul usizeMax
  omega

theorem acc_lt {index acc group : Nat} (hacc : acc < 128 ^ index) (hgroup : group < 128) :
    acc + 128 ^ index * group < 128 ^ (index + 1) := by
  rw [pow_succ]
  nlinarith

theorem decodeFrom_spelt (hsound : width.Sound carry low high top) {value : Int}
    {bytes : List UInt8} (hspelt : Spelt carry value bytes) (tail : List UInt8) {index acc : Nat}
    {prevByte : UInt8} (hindex : index ≤ top) (hacc : acc < 128 ^ index)
    (hprev : 0 < index → 128 ≤ prevByte.toNat) (hwindow : Window low high top index value)
    (hneeded : 0 < index → value ≠ carry (prevByte.toNat - 128)) :
    width.decodeFrom index prevByte (BitVec.ofNat w acc) (bytes ++ tail) =
      .ok (BitVec.ofInt w (acc + 128 ^ index * value), index + bytes.length) := by
  induction hspelt generalizing index acc prevByte with
  | @last byte hlast =>
    have hstep := decodeByte_last hsound hindex hacc hprev hlast hwindow
    rw [if_neg fun h => hneeded h.1 h.2] at hstep
    rw [List.singleton_append, Width.decodeFrom, shift_eq hsound hindex, hstep]
    rfl
  | @more byte above rest hmore hneeded' hrest ih =>
    have hrange : byte.toNat < 256 := byte.toNat_lt
    have hgroup : byte.toNat - 128 < 128 := by omega
    have hlt : index < top := by
      rcases Nat.lt_or_eq_of_le hindex with hlt | rfl
      · exact hlt
      · rw [window_top] at hwindow
        exact absurd hwindow (hsound.outside _ above rest hgroup hrest hneeded')
    rw [List.cons_append, Width.decodeFrom, shift_eq hsound hindex,
      decodeByte_more hsound prevByte hlt hacc hmore]
    have hrest := ih hlt (acc_lt hacc hgroup) (fun _ => hmore)
      ((window_succ hlt hgroup above).mp hwindow) (fun _ => hneeded')
    have hvalue : ((acc + 128 ^ index * (byte.toNat - 128) : Nat) : Int) +
        128 ^ (index + 1) * above =
          acc + 128 ^ index * (((byte.toNat - 128 : Nat) : Int) + 128 * above) := by
      rw [Nat.cast_add, Nat.cast_mul, Nat.cast_pow, pow_succ]
      simp only [Nat.cast_ofNat]
      linarith
    have hlength : index + 1 + rest.length = index + (byte :: rest).length := by
      rw [List.length_cons]
      omega
    rw [hvalue, hlength] at hrest
    exact hrest

def Refused {α : Type} (answer : Except DecodeError α) : Prop :=
  ∃ place, answer = .error (.overflow place) ∨ answer = .error (.nonMinimal place)

/-- The input starts with a spelling of a value that fits, every byte of it asks for another, or
it is refused. -/
theorem decodeFrom_cases (hsound : width.Sound carry low high top) (input : List UInt8)
    {index acc : Nat} {prevByte : UInt8} (hindex : index ≤ top) (hacc : acc < 128 ^ index)
    (hprev : 0 < index → 128 ≤ prevByte.toNat) :
    (∃ value bytes tail, input = bytes ++ tail ∧ Spelt carry value bytes ∧
      Window low high top index value ∧ (0 < index → value ≠ carry (prevByte.toNat - 128))) ∨
    ((∀ byte ∈ input, 128 ≤ byte.toNat) ∧ index + input.length ≤ top ∧
      width.decodeFrom index prevByte (BitVec.ofNat w acc) input =
        .error (.unexpectedEnd (index + input.length))) ∨
    Refused (width.decodeFrom index prevByte (BitVec.ofNat w acc) input) := by
  induction input generalizing index acc prevByte with
  | nil => exact .inr (.inl ⟨by simp, by simpa using hindex, rfl⟩)
  | cons byte rest ih =>
    rw [Width.decodeFrom, shift_eq hsound hindex]
    have hrange : byte.toNat < 256 := byte.toNat_lt
    by_cases hbyte : byte.toNat < 128
    · by_cases hwindow : Window low high top index (lastValue carry byte.toNat)
      · rw [decodeByte_last hsound hindex hacc hprev hbyte hwindow]
        split
        · exact .inr (.inr ⟨index, .inr rfl⟩)
        next hneeded =>
          exact .inl ⟨_, [byte], rest, rfl, Spelt.last hbyte, hwindow,
            fun hpos heq => hneeded ⟨hpos, heq⟩⟩
      · have htop : index = top := by
          rcases Nat.lt_or_eq_of_le hindex with hlt | heq
          · have hcarry := @window_of_top low high top (index + 1) hsound.low_nonpos
              hsound.high_nonneg _ (hsound.carries byte.toNat)
            exact absurd ((window_succ hlt hbyte _).mpr hcarry) hwindow
          · exact heq
        subst htop
        rw [decodeByte_exceeds hsound prevByte _ fun h => hwindow ((window_top _ _ _ _).mpr h.2)]
        exact .inr (.inr ⟨index, .inl rfl⟩)
    · have hmore : 128 ≤ byte.toNat := by omega
      have hgroup : byte.toNat - 128 < 128 := by omega
      rcases Nat.lt_or_eq_of_le hindex with hlt | rfl
      · rw [decodeByte_more hsound prevByte hlt hacc hmore]
        rcases ih hlt (acc_lt hacc hgroup) (fun _ => hmore) with
          ⟨value, bytes, tail, rfl, hspelt, hwindow, hneeded⟩ | ⟨hall, hlength, hend⟩ | hrefused
        · refine .inl ⟨_, byte :: bytes, tail, rfl,
            Spelt.more hmore (hneeded (Nat.succ_pos index)) hspelt,
            (window_succ hlt hgroup value).mpr hwindow, fun _ => ?_⟩
          exact Spelt.more_ne_carry hsound.settled (hneeded (Nat.succ_pos index)) _
        · refine .inr (.inl ⟨?_, ?_, ?_⟩)
          · exact List.forall_mem_cons.mpr ⟨hmore, hall⟩
          · rw [List.length_cons]
            omega
          · rw [List.length_cons, Nat.add_comm rest.length, ← Nat.add_assoc]
            exact hend
        · exact .inr (.inr hrefused)
      · rw [decodeByte_exceeds hsound prevByte _ fun h => hbyte h.1]
        exact .inr (.inr ⟨index, .inl rfl⟩)

theorem closes_from (hsound : width.Sound carry low high top) (input : List UInt8)
    {index : Nat} (below : Nat) (hall : ∀ byte ∈ input, 128 ≤ byte.toNat)
    (hlength : index + input.length ≤ top) :
    ∃ value tail, Spelt carry value (input ++ tail) ∧ tail ≠ [] ∧
      Window low high top index value ∧ value ≠ carry below := by
  induction input generalizing index below with
  | nil =>
    obtain ⟨byte, hbyte, hneeded, hlow, hhigh⟩ := hsound.closes below
    exact ⟨_, [byte], Spelt.last hbyte, List.cons_ne_nil _ _,
      window_of_top hsound.low_nonpos hsound.high_nonneg ⟨hlow, hhigh⟩, hneeded⟩
  | cons byte rest ih =>
    rw [List.length_cons] at hlength
    obtain ⟨hmore, hall⟩ := List.forall_mem_cons.mp hall
    have hrange : byte.toNat < 256 := byte.toNat_lt
    have hgroup : byte.toNat - 128 < 128 := by omega
    have hindex : index < top := by omega
    obtain ⟨value, tail, hspelt, htail, hwindow, hneeded⟩ :=
      @ih (index + 1) (byte.toNat - 128) hall (by omega)
    exact ⟨_, tail, Spelt.more hmore hneeded hspelt, htail,
      (window_succ hindex hgroup value).mpr hwindow,
      Spelt.more_ne_carry hsound.settled hneeded below⟩

theorem decodeFrom_refused (input tail : List UInt8) (index : Nat) (prevByte : UInt8)
    (result : BitVec w) (h : Refused (width.decodeFrom index prevByte result input)) :
    Refused (width.decodeFrom index prevByte result (input ++ tail)) := by
  induction input generalizing index prevByte result with
  | nil =>
    obtain ⟨place, h | h⟩ := h
    · cases h
    · cases h
  | cons byte rest ih =>
    rw [List.cons_append, Width.decodeFrom]
    rw [Width.decodeFrom] at h
    cases hstep : width.decodeByte byte index (saturatingMul index 7) prevByte result with
    | error cause =>
      rw [hstep] at h
      exact h
    | ok step =>
      obtain ⟨result', found⟩ := step
      rw [hstep] at h
      cases found with
      | none => exact ih _ _ _ h
      | some answer => exact h

end Loop

end LogicalWorks.Leb128

/-! At every width the encoder and the decoder are a canonical prefix code. -/
namespace LogicalWorks.Leb128

open Groups

/-- `decode` reads back what `encode` writes whatever follows it, reads nothing else, and says of
everything else whether it ends too early or what is wrong in it. -/
structure CanonicalPrefixCode {V : Type} (encode : V → List UInt8)
    (decode : List UInt8 → Except DecodeError (V × Nat)) : Prop where
  decodes (value : V) (suffix : List UInt8) :
    decode (encode value ++ suffix) = .ok (value, (encode value).length)
  canonical (input : List UInt8) (value : V) (consumed : Nat) :
    decode input = .ok (value, consumed) →
      consumed ≤ input.length ∧ input.take consumed = encode value
  truncated (value : V) (input : List UInt8) : input <+: encode value → input ≠ encode value →
    decode input = .error (.unexpectedEnd input.length)
  refuses (input : List UInt8) : (∀ value, ¬ encode value <+: input) →
    (∀ value, ¬ input <+: encode value) → Refused (decode input)

section Code

variable {w : Nat} {width : Width w} {carry : Nat → Int} {low high : Int} {top : Nat}
  {encode : BitVec w → List UInt8} {read : BitVec w → Int}

/-- The integers of a width: its words read as integers are those of the window. -/
structure Reads (read : BitVec w → Int) (low high : Int) (top : Nat) : Prop where
  inside (value : BitVec w) : Window low high top 0 (read value)
  ofInt_read (value : BitVec w) : BitVec.ofInt w (read value) = value
  read_ofInt (value : Int) : Window low high top 0 value → read (BitVec.ofInt w value) = value

theorem decode_spelt (hsound : width.Sound carry low high top) {value : Int}
    {bytes : List UInt8} (hspelt : Spelt carry value bytes) (tail : List UInt8)
    (hwindow : Window low high top 0 value) :
    width.decode (bytes ++ tail) = .ok (BitVec.ofInt w value, bytes.length) := by
  have h := @decodeFrom_spelt w width carry low high top hsound value bytes hspelt tail 0 0 0
    (Nat.zero_le top) Nat.zero_lt_one (fun h => absurd h (Nat.lt_irrefl 0)) hwindow
    (fun h => absurd h (Nat.lt_irrefl 0))
  simpa [Width.decode] using h

theorem decode_cases (hsound : width.Sound carry low high top) (input : List UInt8) :
    (∃ value bytes tail, input = bytes ++ tail ∧ Spelt carry value bytes ∧
      Window low high top 0 value) ∨
    ((∀ byte ∈ input, 128 ≤ byte.toNat) ∧ input.length ≤ top ∧
      width.decode input = .error (.unexpectedEnd input.length)) ∨
    Refused (width.decode input) := by
  rcases @decodeFrom_cases w width carry low high top hsound input 0 0 0
    (Nat.zero_le top) Nat.zero_lt_one (fun h => absurd h (Nat.lt_irrefl 0)) with
    ⟨value, bytes, tail, hinput, hspelt, hwindow, -⟩ | ⟨hall, hlength, hend⟩ | hrefused
  · exact .inl ⟨value, bytes, tail, hinput, hspelt, hwindow⟩
  · rw [Nat.zero_add] at hlength hend
    exact .inr (.inl ⟨hall, hlength, hend⟩)
  · exact .inr (.inr hrefused)

theorem canonicalPrefixCode (hsound : width.Sound carry low high top)
    (hread : Reads read low high top)
    (hencode : ∀ value, Spelt carry (read value) (encode value)) :
    CanonicalPrefixCode encode width.decode := by
  have hdecodes (value : BitVec w) (suffix : List UInt8) :
      width.decode (encode value ++ suffix) = .ok (value, (encode value).length) := by
    rw [decode_spelt hsound (hencode value) suffix (hread.inside value), hread.ofInt_read]
  have hspelling {value : Int} {bytes : List UInt8} (hspelt : Spelt carry value bytes)
      (hwindow : Window low high top 0 value) : encode (BitVec.ofInt w value) = bytes :=
    Spelt.bytes_unique (hencode _) hspelt (hread.read_ofInt value hwindow)
  refine ⟨hdecodes, ?canonical, ?truncated, ?refuses⟩
  case canonical =>
    intro input value consumed h
    rcases decode_cases hsound input with
      ⟨value', bytes, tail, rfl, hspelt, hwindow⟩ | ⟨-, -, hend⟩ | ⟨place, hrefused | hrefused⟩
    · rw [decode_spelt hsound hspelt tail hwindow] at h
      cases h
      rw [hspelling hspelt hwindow]
      exact ⟨by simp, List.take_left⟩
    · rw [hend] at h
      cases h
    · rw [hrefused] at h
      cases h
    · rw [hrefused] at h
      cases h
  case truncated =>
    intro value input hprefix hproper
    obtain ⟨tail, htail⟩ := hprefix
    rcases decode_cases hsound input with
      ⟨value', bytes, tail', rfl, hspelt, -⟩ | ⟨-, -, hend⟩ | hrefused
    · have hsame : encode value = bytes := by
        have happend : encode value ++ [] = bytes ++ (tail' ++ tail) := by
          rw [List.append_nil, ← htail, List.append_assoc]
        exact (hencode value).prefix_free hspelt happend
      rw [hsame, List.append_assoc, List.append_right_eq_self] at htail
      rw [(List.append_eq_nil_iff.mp htail).1, List.append_nil, hsame] at hproper
      exact absurd rfl hproper
    · exact hend
    · -- what is refused would have been refused in the whole spelling
      have hwhole : Refused (width.decode (input ++ tail)) :=
        decodeFrom_refused input tail 0 0 0 hrefused
      have hok := hdecodes value []
      rw [List.append_nil] at hok
      rw [htail, hok] at hwhole
      obtain ⟨place, h | h⟩ := hwhole
      · cases h
      · cases h
  case refuses =>
    intro input hstarts hends
    rcases decode_cases hsound input with
      ⟨value, bytes, tail, rfl, hspelt, hwindow⟩ | ⟨hall, hlength, -⟩ | hrefused
    · refine absurd ⟨tail, ?_⟩ (hstarts (BitVec.ofInt w value))
      rw [hspelling hspelt hwindow]
    · obtain ⟨value, tail, hspelt, -, hwindow, -⟩ :=
        @closes_from w width carry low high top hsound input 0 0 hall (by omega)
      refine absurd ⟨tail, ?_⟩ (hends (BitVec.ofInt w value))
      rw [hspelling hspelt hwindow]
    · exact hrefused

end Code

end LogicalWorks.Leb128
