import LogicalWorks.Legacy.Decimal

/-! What a decode accepts, and what it answers: the digits of a packed or a zoned field, folded. -/
namespace LogicalWorks.Legacy

def spelled (digits : List Nat) : Nat := digits.foldl (fun value digit => value * 10 + digit) 0

namespace Sign

def apply (magnitude : Nat) : Sign → Int
  | .positive => magnitude
  | .negative => -magnitude

def Spells (signed : Bool) (nibble : Nat) (sign : Sign) : Prop :=
  (nibble = 0x0c ∨ nibble = 0x0f) ∧ sign = .positive ∨
    nibble = 0x0d ∧ sign = .negative ∧ signed = true

end Sign

/-! Folding digits saturates where the number they spell would not fit. -/

theorem push_clamp (magnitude digit : Nat) :
    push (.clamp magnitude) digit = .clamp ((magnitude * 10 + digit : Nat) : Int) := by
  have hval : (push (.clamp magnitude) digit).val =
      (I128.clamp ((magnitude * 10 + digit : Nat) : Int)).val := by
    simp only [push, I128.saturatingAdd, I128.saturatingMul, I128.clamp, i128Min, i128Max]
    omega
  cases hpush : push (.clamp magnitude) digit
  rw [hpush] at hval
  cases hval
  rfl

theorem foldl_push (digits : List Nat) (magnitude : Nat) :
    digits.foldl push (.clamp magnitude) =
      .clamp ((digits.foldl (fun value digit => value * 10 + digit) magnitude : Nat) : Int) := by
  induction digits generalizing magnitude with
  | nil => rfl
  | cons digit digits ih => rw [List.foldl_cons, List.foldl_cons, push_clamp, ih]

theorem foldl_push_zero (digits : List Nat) :
    digits.foldl push (.clamp 0) = .clamp (spelled digits) := foldl_push digits 0

theorem applySign_exact_iff (magnitude : Nat) (sign : Sign) :
    (applySign (.clamp magnitude) sign).val = sign.apply magnitude ↔
      (magnitude : Int) ≤ i128Max := by
  cases sign with
  | positive =>
    change (I128.clamp magnitude).val = (magnitude : Int) ↔ _
    rw [I128.val_clamp_natCast]
    omega
  | negative =>
    change max i128Min (min (-(I128.clamp magnitude).val) i128Max) = -(magnitude : Int) ↔ _
    rw [I128.val_clamp_natCast]
    unfold i128Min i128Max
    omega

theorem foldDigit_eq_ok {accumulator value : I128} {nibble offset : Nat} :
    foldDigit accumulator nibble offset = .ok value ↔
      nibble ≤ 9 ∧ value = push accumulator nibble := by
  unfold foldDigit
  simp only [bind_eq_ok, require_eq_ok, pure_eq_ok]
  constructor
  · rintro ⟨_, hnibble, rfl⟩
    exact ⟨hnibble, rfl⟩
  · rintro ⟨hnibble, rfl⟩
    exact ⟨(), hnibble, rfl⟩

theorem readSign_eq_ok {nibble offset : Nat} {signed : Bool} {sign : Sign} :
    (readSign nibble offset = .ok sign ∧ ¬(signed = false ∧ sign = .negative)) ↔
      Sign.Spells signed nibble sign := by
  unfold readSign Sign.Spells
  split
  · rename_i h
    cases sign with
    | positive => simp [h]
    | negative =>
      simp [h]
      omega
  · split
    · rename_i h hnegative
      cases sign <;> cases signed <;> simp [hnegative]
    · rename_i h hnegative
      simp [h, hnegative]

theorem Sign.Spells.eq {signed : Bool} {nibble : Nat} {left right : Sign}
    (hleft : Sign.Spells signed nibble left) (hright : Sign.Spells signed nibble right) :
    left = right := by
  unfold Sign.Spells at hleft hright
  rcases hleft with ⟨hnibble, rfl⟩ | ⟨hnibble, rfl, -⟩
  · rcases hright with ⟨-, rfl⟩ | ⟨hother, -⟩
    · rfl
    · omega
  · rcases hright with ⟨hother, -⟩ | ⟨-, rfl, -⟩
    · omega
    · rfl

/-! Packed fields. -/

def nibbles (bytes : Bytes) : List Nat := bytes.flatMap fun byte => [byte.toNat / 16, byte.toNat % 16]

@[simp] theorem nibbles_nil : nibbles [] = [] := rfl

@[simp] theorem nibbles_cons (byte : UInt8) (rest : Bytes) :
    nibbles (byte :: rest) = byte.toNat / 16 :: byte.toNat % 16 :: nibbles rest := rfl

theorem length_nibbles (bytes : Bytes) : (nibbles bytes).length = 2 * bytes.length := by
  induction bytes with
  | nil => rfl
  | cons byte rest ih =>
    rw [nibbles_cons, List.length_cons, List.length_cons, ih, List.length_cons]
    omega

structure PackedField (bytes : Bytes) (digits : Nat) (signed : Bool) (drawn : List Nat)
    (nibble : Nat) (sign : Sign) : Prop where
  layout : nibbles bytes = pad digits ++ (drawn ++ [nibble])
  length : drawn.length = digits
  bounded : ∀ digit ∈ drawn, digit ≤ 9
  sign : Sign.Spells signed nibble sign

theorem drawn_of_layout {byte next : UInt8} {rest : Bytes} {drawn : List Nat} {nibble : Nat}
    (h : nibbles (byte :: next :: rest) = drawn ++ [nibble]) :
    ∃ tail, drawn = byte.toNat / 16 :: byte.toNat % 16 :: tail ∧
      nibbles (next :: rest) = tail ++ [nibble] := by
  rw [nibbles_cons] at h
  cases drawn with
  | nil => simp at h
  | cons first drawn =>
    cases drawn with
    | nil => simp at h
    | cons second tail =>
      simp only [List.cons_append, List.cons.injEq] at h
      obtain ⟨rfl, rfl, htail⟩ := h
      exact ⟨tail, rfl, htail⟩

theorem packedFrom_eq_ok {digits last : Nat} {signed : Bool} {offset : Nat} {byte : UInt8}
    {rest : Bytes} {accumulator value : I128} (hlast : offset + rest.length = last)
    (hpad : ¬(offset = 0 ∧ digits % 2 = 0)) :
    packedFrom digits last signed offset (byte :: rest) accumulator = .ok value ↔
      ∃ drawn nibble sign, nibbles (byte :: rest) = drawn ++ [nibble] ∧
        (∀ digit ∈ drawn, digit ≤ 9) ∧ Sign.Spells signed nibble sign ∧
          value = applySign (drawn.foldl push accumulator) sign := by
  induction rest generalizing offset byte accumulator with
  | nil =>
    rw [packedFrom]
    rw [if_neg hpad, if_pos (show offset = last from hlast)]
    simp only [bind_eq_ok, foldDigit_eq_ok, require_eq_ok]
    constructor
    · rintro ⟨_, ⟨hhigh, rfl⟩, sign, hsign, _, hnegative, hend⟩
      cases hend
      refine ⟨[byte.toNat / 16], byte.toNat % 16, sign, rfl, ?_, ?_, rfl⟩
      · simpa using hhigh
      · exact readSign_eq_ok.mp ⟨hsign, hnegative⟩
    · rintro ⟨drawn, nibble, sign, hlayout, hdrawn, hsign, rfl⟩
      have hsplit : [byte.toNat / 16] ++ [byte.toNat % 16] = drawn ++ [nibble] := hlayout
      obtain ⟨rfl, hnibble⟩ := List.append_inj' hsplit rfl
      cases hnibble
      obtain ⟨hread, hnegative⟩ := readSign_eq_ok.mpr hsign
      exact ⟨_, ⟨hdrawn _ (List.mem_singleton_self _), rfl⟩, sign, hread, (), hnegative, rfl⟩
  | cons next rest ih =>
    have hinner : offset ≠ last := by
      rw [List.length_cons] at hlast
      omega
    have hnext : offset + 1 + rest.length = last := by
      rw [List.length_cons] at hlast
      omega
    rw [packedFrom]
    rw [if_neg hpad, if_neg hinner]
    simp only [bind_eq_ok, foldDigit_eq_ok, ih hnext (by omega)]
    constructor
    · rintro ⟨_, ⟨hhigh, rfl⟩, _, ⟨hlow, rfl⟩, drawn, nibble, sign, hlayout, hdrawn, hsign, rfl⟩
      refine ⟨byte.toNat / 16 :: byte.toNat % 16 :: drawn, nibble, sign, ?_, ?_, hsign, rfl⟩
      · rw [nibbles_cons, hlayout]
        rfl
      · simpa [hhigh, hlow] using hdrawn
    · rintro ⟨drawn, nibble, sign, hlayout, hdrawn, hsign, rfl⟩
      obtain ⟨tail, rfl, htail⟩ := drawn_of_layout hlayout
      simp only [List.forall_mem_cons] at hdrawn
      obtain ⟨hhigh, hlow, htail_bounded⟩ := hdrawn
      exact ⟨_, ⟨hhigh, rfl⟩, _, ⟨hlow, rfl⟩, tail, nibble, sign, htail, htail_bounded, hsign, rfl⟩

section Packed

variable {bytes : Bytes} {digits : Nat} {signed : Bool} {drawn : List Nat} {nibble : Nat} {sign : Sign}

theorem width_iff_of_layout (h : nibbles bytes = pad digits ++ (drawn ++ [nibble])) :
    bytes.length = packedWidth digits ↔ drawn.length = digits := by
  have hlength := congrArg List.length h
  rw [length_nibbles, List.length_append, List.length_append, List.length_singleton, pad] at hlength
  unfold packedWidth
  split at hlength
  · rw [List.length_singleton] at hlength
    omega
  · rw [List.length_nil] at hlength
    omega

theorem PackedField.width (h : PackedField bytes digits signed drawn nibble sign) :
    bytes.length = packedWidth digits := (width_iff_of_layout h.layout).mpr h.length

theorem PackedField.eq {others : List Nat} {other : Nat} {reading : Sign}
    (h : PackedField bytes digits signed drawn nibble sign)
    (hother : PackedField bytes digits signed others other reading) :
    drawn = others ∧ nibble = other ∧ sign = reading := by
  have hbody := List.append_cancel_left (h.layout.symm.trans hother.layout)
  obtain ⟨rfl, hnibble⟩ := List.append_inj' hbody rfl
  cases hnibble
  exact ⟨rfl, rfl, h.sign.eq hother.sign⟩

theorem packedFrom_start {value : I128} (hdigits : digits ≠ 0)
    (hwidth : bytes.length = packedWidth digits) :
    packedFrom digits (bytes.length - 1) signed 0 bytes (.clamp 0) = .ok value ↔
      ∃ drawn nibble sign, PackedField bytes digits signed drawn nibble sign ∧
        value = applySign (.clamp (spelled drawn)) sign := by
  cases bytes with
  | nil =>
    rw [List.length_nil, packedWidth] at hwidth
    omega
  | cons byte rest =>
    by_cases heven : digits % 2 = 0
    · cases rest with
      | nil =>
        rw [List.length_singleton, packedWidth] at hwidth
        omega
      | cons next rest =>
        have hlast : 0 + 1 + rest.length = (byte :: next :: rest).length - 1 := by
          rw [List.length_cons, List.length_cons]
          omega
        have hbehind : ¬(0 + 1 = 0 ∧ digits % 2 = 0) := by omega
        rw [packedFrom, if_pos ⟨rfl, heven⟩]
        simp only [bind_eq_ok, require_eq_ok, foldDigit_eq_ok, packedFrom_eq_ok hlast hbehind]
        constructor
        · rintro ⟨_, hhigh, _, ⟨hlow, rfl⟩, tail, nibble, sign, htail, hbounded, hsign, rfl⟩
          have hfield : nibbles (byte :: next :: rest) =
              pad digits ++ ((byte.toNat % 16 :: tail) ++ [nibble]) := by
            rw [nibbles_cons, htail, hhigh, pad, if_pos heven]
            rfl
          have hlength := (width_iff_of_layout hfield).mp hwidth
          refine ⟨byte.toNat % 16 :: tail, nibble, sign, ⟨hfield, hlength, ?_, hsign⟩, ?_⟩
          · simpa [hlow] using hbounded
          · rw [← foldl_push_zero]
            rfl
        · rintro ⟨drawn, nibble, sign, hfield, rfl⟩
          have hlayout := hfield.layout
          rw [nibbles_cons, pad, if_pos heven, List.singleton_append, List.cons.injEq] at hlayout
          obtain ⟨hhigh, hbody⟩ := hlayout
          cases drawn with
          | nil => exact absurd hfield.length.symm hdigits
          | cons digit tail =>
            rw [List.cons_append, List.cons.injEq] at hbody
            obtain ⟨rfl, htail⟩ := hbody
            obtain ⟨hlow, hbounded⟩ := List.forall_mem_cons.mp hfield.bounded
            refine ⟨(), hhigh, _, ⟨hlow, rfl⟩, tail, nibble, sign, htail, hbounded, hfield.sign, ?_⟩
            rw [← foldl_push_zero]
            rfl
    · have hlast : 0 + rest.length = (byte :: rest).length - 1 := by
        rw [List.length_cons]
        omega
      have hpad : pad digits = [] := if_neg heven
      rw [packedFrom_eq_ok hlast fun h => heven h.2]
      constructor
      · rintro ⟨drawn, nibble, sign, hbody, hbounded, hsign, rfl⟩
        have hfield : nibbles (byte :: rest) = pad digits ++ (drawn ++ [nibble]) := by
          rw [hpad, hbody]
          rfl
        have hlength := (width_iff_of_layout hfield).mp hwidth
        refine ⟨drawn, nibble, sign, ⟨hfield, hlength, hbounded, hsign⟩, ?_⟩
        rw [foldl_push_zero]
      · rintro ⟨drawn, nibble, sign, hfield, rfl⟩
        refine ⟨drawn, nibble, sign, ?_, hfield.bounded, hfield.sign, ?_⟩
        · rw [hfield.layout, hpad]
          rfl
        · rw [foldl_push_zero]

theorem decodePacked_eq_ok {scale : UInt32} {limits : Limits} {value : Decimal}
    (hdigits : digits ≠ 0) :
    decodePacked bytes digits scale signed limits = .ok value ↔
      bytes.length ≤ limits.maxBytes ∧ ∃ drawn nibble sign,
        PackedField bytes digits signed drawn nibble sign ∧
          value = ⟨applySign (.clamp (spelled drawn)) sign, scale⟩ := by
  unfold decodePacked checkWidth Limits.checkBytes
  simp only [bind_eq_ok, require_eq_ok, pure_eq_ok]
  constructor
  · rintro ⟨_, ⟨_, hbytes, hwidth⟩, coefficient, hfold, rfl⟩
    obtain ⟨drawn, nibble, sign, hfield, rfl⟩ := (packedFrom_start hdigits hwidth).mp hfold
    exact ⟨hbytes, drawn, nibble, sign, hfield, rfl⟩
  · rintro ⟨hbytes, drawn, nibble, sign, hfield, rfl⟩
    exact ⟨(), ⟨(), hbytes, hfield.width⟩, _,
      (packedFrom_start hdigits hfield.width).mpr ⟨drawn, nibble, sign, hfield, rfl⟩, rfl⟩

/-- A picture of no digits: the nibble where the sign would be is read as a digit. -/
theorem decodePacked_zero_eq_ok {scale : UInt32} {limits : Limits} {value : Decimal} :
    decodePacked bytes 0 scale signed limits = .ok value ↔
      bytes.length ≤ limits.maxBytes ∧ ∃ byte : UInt8, bytes = [byte] ∧ byte.toNat ≤ 9 ∧
        value = ⟨.clamp byte.toNat, scale⟩ := by
  unfold decodePacked checkWidth Limits.checkBytes
  simp only [bind_eq_ok, require_eq_ok, pure_eq_ok]
  constructor
  · rintro ⟨_, ⟨_, hbytes, hwidth⟩, coefficient, hfold, rfl⟩
    obtain ⟨byte, rfl⟩ := List.length_eq_one_iff.mp hwidth
    rw [packedFrom, if_pos ⟨rfl, rfl⟩] at hfold
    simp only [bind_eq_ok, require_eq_ok, foldDigit_eq_ok] at hfold
    obtain ⟨_, hhigh, _, ⟨hlow, rfl⟩, hend⟩ := hfold
    cases hend
    have hdigit : byte.toNat % 16 = byte.toNat := by omega
    refine ⟨hbytes, byte, rfl, by omega, ?_⟩
    have hpush := push_clamp 0 (byte.toNat % 16)
    rw [hdigit, Nat.zero_mul, Nat.zero_add] at hpush
    rw [hdigit]
    exact congrArg (Decimal.mk · scale) hpush
  · rintro ⟨hbytes, byte, rfl, hbound, rfl⟩
    refine ⟨(), ⟨(), hbytes, rfl⟩, .clamp byte.toNat, ?_, rfl⟩
    have hdigit : byte.toNat % 16 = byte.toNat := by omega
    have hpush := push_clamp 0 (byte.toNat % 16)
    rw [hdigit, Nat.zero_mul, Nat.zero_add] at hpush
    rw [packedFrom, if_pos ⟨rfl, rfl⟩]
    simp only [bind_eq_ok, require_eq_ok, foldDigit_eq_ok]
    refine ⟨(), by omega, _, ⟨by omega, rfl⟩, ?_⟩
    rw [hdigit]
    exact congrArg Except.ok hpush

end Packed

/-! Zoned fields. -/

def lows (bytes : Bytes) : List Nat := bytes.map fun byte => byte.toNat % 16

def Zones (signed : Bool) (sign : Sign) : Bytes → Prop
  | [] => sign = .positive
  | [byte] =>
    if signed then Sign.Spells true (byte.toNat / 16) sign
    else byte.toNat / 16 = 0x0f ∧ sign = .positive
  | byte :: rest => byte.toNat / 16 = 0x0f ∧ Zones signed sign rest

structure ZonedField (bytes : Bytes) (digits : Nat) (signed : Bool) (sign : Sign) : Prop where
  length : bytes.length = digits
  bounded : ∀ digit ∈ lows bytes, digit ≤ 9
  zones : Zones signed sign bytes

section Zoned

variable {bytes : Bytes} {digits : Nat} {signed : Bool} {sign : Sign}

theorem Zones.eq {other : Sign} (h : Zones signed sign bytes) (hother : Zones signed other bytes) :
    sign = other := by
  induction bytes with
  | nil => exact h.trans hother.symm
  | cons byte rest ih =>
    cases rest with
    | nil =>
      unfold Zones at h hother
      split at h
      · rw [if_pos ‹_›] at hother
        exact h.eq hother
      · rw [if_neg ‹_›] at hother
        exact h.2.trans hother.2.symm
    | cons next rest => exact ih h.2 hother.2

theorem zonedFrom_eq_ok {last offset : Nat} {byte : UInt8} {rest : Bytes} {accumulator value : I128}
    (hlast : offset + rest.length = last) :
    zonedFrom last signed offset (byte :: rest) accumulator = .ok value ↔
      ∃ sign, (∀ digit ∈ lows (byte :: rest), digit ≤ 9) ∧ Zones signed sign (byte :: rest) ∧
        value = applySign ((lows (byte :: rest)).foldl push accumulator) sign := by
  induction rest generalizing offset byte accumulator with
  | nil =>
    have hoffset : offset = last := hlast
    rw [zonedFrom]
    cases signed with
    | true =>
      simp only [hoffset, and_self, if_true, bind_eq_ok, foldDigit_eq_ok]
      constructor
      · rintro ⟨_, ⟨hdigit, rfl⟩, sign, hsign, hend⟩
        cases hend
        have hspells : Sign.Spells true (byte.toNat / 16) sign :=
          readSign_eq_ok.mp ⟨hsign, by simp⟩
        exact ⟨sign, by simpa [lows] using hdigit, hspells, rfl⟩
      · rintro ⟨sign, hdigit, hspells, rfl⟩
        have hread : readSign (byte.toNat / 16) last = .ok sign := (readSign_eq_ok.mpr hspells).1
        exact ⟨_, ⟨hdigit _ (List.mem_singleton_self _), rfl⟩, sign, hread, rfl⟩
    | false =>
      simp only [Bool.false_eq_true, and_false, if_false, bind_eq_ok, foldDigit_eq_ok, require_eq_ok]
      constructor
      · rintro ⟨_, ⟨hdigit, rfl⟩, _, hzone, hend⟩
        cases hend
        exact ⟨.positive, by simpa [lows] using hdigit, ⟨hzone, rfl⟩, rfl⟩
      · rintro ⟨sign, hdigit, ⟨hzone, rfl⟩, rfl⟩
        exact ⟨_, ⟨hdigit _ (List.mem_singleton_self _), rfl⟩, (), hzone, rfl⟩
  | cons next rest ih =>
    rw [List.length_cons] at hlast
    have hinner : ¬(offset = last ∧ signed = true) := by omega
    have hnext : offset + 1 + rest.length = last := by omega
    rw [zonedFrom]
    simp only [hinner, if_false, bind_eq_ok, foldDigit_eq_ok, require_eq_ok, ih hnext]
    constructor
    · rintro ⟨_, ⟨hdigit, rfl⟩, _, hzone, sign, hbounded, hzones, rfl⟩
      refine ⟨sign, ?_, ⟨hzone, hzones⟩, rfl⟩
      exact List.forall_mem_cons.mpr ⟨hdigit, hbounded⟩
    · rintro ⟨sign, hbounded, ⟨hzone, hzones⟩, rfl⟩
      obtain ⟨hdigit, hbehind⟩ := List.forall_mem_cons.mp hbounded
      exact ⟨_, ⟨hdigit, rfl⟩, (), hzone, sign, hbehind, hzones, rfl⟩

theorem decodeZoned_eq_ok {limits : Limits} {value : Decimal} :
    decodeZoned bytes digits signed limits = .ok value ↔
      bytes.length ≤ limits.maxBytes ∧ ∃ sign, ZonedField bytes digits signed sign ∧
        value = ⟨applySign (.clamp (spelled (lows bytes))) sign, 0⟩ := by
  have hfold (coefficient : I128) :
      zonedFrom (bytes.length - 1) signed 0 bytes (.clamp 0) = .ok coefficient ↔
        ∃ sign, (∀ digit ∈ lows bytes, digit ≤ 9) ∧ Zones signed sign bytes ∧
          coefficient = applySign (.clamp (spelled (lows bytes))) sign := by
    cases bytes with
    | nil =>
      constructor
      · intro hend
        cases hend
        exact ⟨.positive, by simp [lows], rfl, rfl⟩
      · rintro ⟨sign, -, rfl, rfl⟩
        rfl
    | cons byte rest =>
      have hlast : 0 + rest.length = (byte :: rest).length - 1 := by
        rw [List.length_cons]
        omega
      rw [zonedFrom_eq_ok hlast, foldl_push_zero]
  unfold decodeZoned checkWidth Limits.checkBytes
  simp only [bind_eq_ok, require_eq_ok, pure_eq_ok, hfold]
  constructor
  · rintro ⟨_, ⟨_, hbytes, hwidth⟩, _, ⟨sign, hbounded, hzones, rfl⟩, rfl⟩
    exact ⟨hbytes, sign, ⟨hwidth, hbounded, hzones⟩, rfl⟩
  · rintro ⟨hbytes, sign, hfield, rfl⟩
    exact ⟨(), ⟨(), hbytes, hfield.length⟩, _, ⟨sign, hfield.bounded, hfield.zones, rfl⟩, rfl⟩

end Zoned

/-! The sign of a value. -/

def signOf (value : Decimal) : Sign := if value.isNegative then .negative else .positive

theorem val_eq_apply (value : Decimal) :
    value.coefficient.val = (signOf value).apply value.coefficient.unsignedAbs := by
  unfold signOf Decimal.isNegative I128.unsignedAbs
  split
  · rename_i h
    have hnegative : value.coefficient.val < 0 := of_decide_eq_true h
    change _ = -((value.coefficient.val.natAbs : Nat) : Int)
    omega
  · rename_i h
    have hnegative : ¬value.coefficient.val < 0 := of_decide_eq_false (Bool.not_eq_true _ ▸ h)
    change _ = ((value.coefficient.val.natAbs : Nat) : Int)
    omega

theorem applySign_signOf_iff (value : Decimal) :
    applySign (.clamp value.coefficient.unsignedAbs) (signOf value) = value.coefficient ↔
      value.coefficient.val ≠ i128Min := by
  have hexact := applySign_exact_iff value.coefficient.unsignedAbs (signOf value)
  rw [← val_eq_apply, ← I128.ext_iff] at hexact
  rw [hexact]
  have hlow := value.coefficient.low
  have hhigh := value.coefficient.high
  unfold I128.unsignedAbs
  unfold i128Min i128Max at *
  omega

end LogicalWorks.Legacy
