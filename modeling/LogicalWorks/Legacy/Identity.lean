import LogicalWorks.Legacy.Fields

/-! Bytes decoded and encoded again, and values encoded and decoded again. -/
namespace LogicalWorks.Legacy

/-! The digits of a magnitude. -/

theorem length_digitsOf (count magnitude : Nat) : (digitsOf count magnitude).length = count := by
  induction count generalizing magnitude with
  | zero => rfl
  | succ count ih => rw [digitsOf, List.length_append, ih, List.length_singleton]

theorem le_nine_of_mem_digitsOf (count magnitude : Nat) :
    ∀ digit ∈ digitsOf count magnitude, digit ≤ 9 := by
  induction count generalizing magnitude with
  | zero => simp [digitsOf]
  | succ count ih =>
    intro digit hdigit
    rcases List.mem_append.mp hdigit with hfront | hlast
    · exact ih _ digit hfront
    · rw [List.mem_singleton.mp hlast]
      omega

theorem spelled_append_singleton (front : List Nat) (digit : Nat) :
    spelled (front ++ [digit]) = spelled front * 10 + digit := by
  unfold spelled
  rw [List.foldl_append]
  rfl

theorem spelled_digitsOf {count magnitude : Nat} (h : magnitude < 10 ^ count) :
    spelled (digitsOf count magnitude) = magnitude := by
  induction count generalizing magnitude with
  | zero =>
    rw [Nat.pow_zero, Nat.lt_one_iff] at h
    rw [h]
    rfl
  | succ count ih =>
    rw [Nat.pow_succ] at h
    rw [digitsOf, spelled_append_singleton, ih (Nat.div_lt_of_lt_mul (by omega))]
    omega

theorem digitsOf_spelled {digits : List Nat} (h : ∀ digit ∈ digits, digit ≤ 9) :
    spelled digits < 10 ^ digits.length ∧ digitsOf digits.length (spelled digits) = digits := by
  induction digits using List.reverseRecOn with
  | nil => exact ⟨Nat.one_pos, rfl⟩
  | append_singleton front digit ih =>
    obtain ⟨hbound, hsame⟩ := ih fun other hother => h other (List.mem_append_left _ hother)
    have hdigit := h digit (List.mem_append_right _ (List.mem_singleton_self digit))
    have hquotient : (spelled front * 10 + digit) / 10 = spelled front := by omega
    have hrest : (spelled front * 10 + digit) % 10 = digit := by omega
    rw [spelled_append_singleton, List.length_append, List.length_singleton, digitsOf, hquotient,
      hrest, hsame, Nat.pow_succ]
    exact ⟨by omega, rfl⟩

theorem magnitudeDigits_le_iff {magnitude count : Nat} :
    magnitudeDigits magnitude ≤ count ↔ count ≠ 0 ∧ magnitude < 10 ^ count := by
  unfold magnitudeDigits
  split
  · rename_i hzero
    rw [hzero]
    constructor
    · intro h
      exact ⟨by omega, Nat.pow_pos (by decide)⟩
    · rintro ⟨h, -⟩
      omega
  · rename_i hsome
    rw [Nat.digits_length_le_iff (by decide)]
    constructor
    · intro h
      refine ⟨?_, h⟩
      rintro rfl
      rw [Nat.pow_zero] at h
      omega
    · exact And.right

theorem eq_digitsOf_iff {digits : List Nat} {magnitude : Nat} (h : ∀ digit ∈ digits, digit ≤ 9)
    (hmagnitude : magnitude < 10 ^ digits.length) :
    digits = digitsOf digits.length magnitude ↔ spelled digits = magnitude := by
  constructor
  · intro hdigits
    rw [hdigits]
    exact spelled_digitsOf hmagnitude
  · rintro rfl
    exact (digitsOf_spelled h).2.symm

theorem folded (magnitude : Nat) (sign : Sign) (scale : UInt32) :
    (applySign (.clamp magnitude) sign).unsignedAbs = min magnitude i128Max.toNat ∧
      (Decimal.isNegative ⟨applySign (.clamp magnitude) sign, scale⟩ = true ↔
        sign = .negative ∧ magnitude ≠ 0) := by
  unfold I128.unsignedAbs Decimal.isNegative
  rw [decide_eq_true_eq]
  cases sign with
  | positive =>
    change (I128.clamp magnitude).val.natAbs = _ ∧ ((I128.clamp magnitude).val < 0 ↔ _)
    rw [I128.val_clamp_natCast]
    unfold i128Max
    constructor
    · omega
    · simp
  | negative =>
    change (max i128Min (min (-(I128.clamp magnitude).val) i128Max)).natAbs = _ ∧
      (max i128Min (min (-(I128.clamp magnitude).val) i128Max) < 0 ↔ _)
    rw [I128.val_clamp_natCast]
    unfold i128Min i128Max
    constructor
    · omega
    · simp
      omega

/-! Packed fields. -/

theorem pairNibbles_nibbles (bytes : Bytes) : pairNibbles (nibbles bytes) = some bytes := by
  induction bytes with
  | nil => rfl
  | cons byte rest ih =>
    have hbyte : byte.toNat / 16 * 16 + byte.toNat % 16 = byte.toNat := by omega
    rw [nibbles_cons, pairNibbles, ih, hbyte, UInt8.ofNat_toNat]
    rfl

theorem pairNibbles_eq_some {bytes : Bytes} {run : List Nat} (hrun : ∀ nibble ∈ run, nibble < 16) :
    pairNibbles run = some bytes ↔ nibbles bytes = run := by
  constructor
  · intro h
    induction run using pairNibbles.induct generalizing bytes with
    | case1 =>
      cases h
      rfl
    | case2 => cases h
    | case3 high low rest ih =>
      obtain ⟨paired, hpaired, rfl⟩ := Option.map_eq_some_iff.mp h
      have hhigh := hrun high (by simp)
      have hlow := hrun low (by simp)
      have hbyte : (UInt8.ofNat (high * 16 + low)).toNat = high * 16 + low := by
        rw [UInt8.toNat_ofNat', Nat.mod_eq_of_lt (by omega)]
      rw [nibbles_cons, hbyte, ih (fun nibble hnibble => hrun nibble (by simp [hnibble])) hpaired]
      congr 1
      · omega
      · congr 1
        omega
  · rintro rfl
    exact pairNibbles_nibbles bytes

theorem pairNibbles_isSome {run : List Nat} (h : run.length % 2 = 0) :
    ∃ bytes, pairNibbles run = some bytes := by
  induction run using pairNibbles.induct with
  | case1 => exact ⟨[], rfl⟩
  | case2 => exact absurd h (by simp)
  | case3 high low rest ih =>
    rw [List.length_cons, List.length_cons] at h
    obtain ⟨bytes, hbytes⟩ := ih (by omega)
    exact ⟨_, by rw [pairNibbles, hbytes]; rfl⟩

def Encodable (value : Decimal) (digits : Nat) (signed : Bool) : Prop :=
  ¬(signed = false ∧ value.isNegative = true) ∧ digits ≠ 0 ∧
    value.coefficient.unsignedAbs < 10 ^ digits

theorem checkEncodable_eq_ok {value : Decimal} {digits : Nat} {signed : Bool} {done : Unit} :
    checkEncodable value digits signed = .ok done ↔ Encodable value digits signed := by
  unfold checkEncodable Encodable digitCount
  simp only [bind_eq_ok, require_eq_ok, magnitudeDigits_le_iff]
  constructor
  · rintro ⟨_, hsign, hdigits⟩
    exact ⟨hsign, hdigits⟩
  · rintro ⟨hsign, hdigits⟩
    exact ⟨(), hsign, hdigits⟩

theorem length_packedNibbles (value : Decimal) (digits : Nat) (signed : Bool) :
    (packedNibbles value digits signed).length % 2 = 0 := by
  unfold packedNibbles pad
  rw [List.length_append, List.length_append, length_digitsOf, List.length_singleton]
  split
  · rw [List.length_singleton]
    omega
  · rw [List.length_nil]
    omega

theorem lt_of_mem_packedNibbles (value : Decimal) (digits : Nat) (signed : Bool) :
    ∀ nibble ∈ packedNibbles value digits signed, nibble < 16 := by
  intro nibble hnibble
  unfold packedNibbles pad at hnibble
  rcases List.mem_append.mp hnibble with hbody | hsign
  · rcases List.mem_append.mp hbody with hpad | hdigit
    · split at hpad
      · rw [List.mem_singleton.mp hpad]
        decide
      · cases hpad
    · have hbound := le_nine_of_mem_digitsOf _ _ nibble hdigit
      omega
  · rw [List.mem_singleton.mp hsign]
    split <;> decide

theorem encodePacked_eq_ok {value : Decimal} {digits : Nat} {signed : Bool} {limits : Limits}
    {bytes : Bytes} :
    encodePacked value digits signed limits = .ok bytes ↔
      Encodable value digits signed ∧ packedWidth digits ≤ limits.maxBytes ∧
        nibbles bytes = packedNibbles value digits signed := by
  rw [← pairNibbles_eq_some (lt_of_mem_packedNibbles value digits signed)]
  unfold encodePacked Limits.checkBytes
  simp only [bind_eq_ok, require_eq_ok, checkEncodable_eq_ok]
  constructor
  · rintro ⟨_, hencodable, _, hwidth, hpaired⟩
    refine ⟨hencodable, hwidth, ?_⟩
    cases hrun : pairNibbles (packedNibbles value digits signed) with
    | none =>
      rw [hrun] at hpaired
      cases hpaired
    | some paired =>
      rw [hrun] at hpaired
      exact congrArg some (Except.ok.inj hpaired)
  · rintro ⟨hencodable, hwidth, hpaired⟩
    refine ⟨(), hencodable, (), hwidth, ?_⟩
    rw [hpaired]
    rfl

section Packed

variable {bytes : Bytes} {digits : Nat} {signed : Bool} {limits : Limits}

theorem packedField_of_encode {value : Decimal} (hencodable : Encodable value digits signed)
    (hnibbles : nibbles bytes = packedNibbles value digits signed) :
    PackedField bytes digits signed (digitsOf digits value.coefficient.unsignedAbs)
      (if signed && value.isNegative then 0x0d else 0x0c) (signOf value) where
  layout := by rw [hnibbles, packedNibbles, List.append_assoc]
  length := length_digitsOf _ _
  bounded := le_nine_of_mem_digitsOf _ _
  sign := by
    obtain ⟨hsign, -⟩ := hencodable
    unfold Sign.Spells signOf
    cases hnegative : value.isNegative with
    | false => simp
    | true =>
      rw [hnegative] at hsign
      cases signed with
      | false => exact absurd ⟨rfl, rfl⟩ hsign
      | true => simp

theorem decodePacked_encode {value : Decimal}
    (h : encodePacked value digits signed limits = .ok bytes) :
    decodePacked bytes digits value.scale signed limits =
      .ok ⟨applySign (.clamp value.coefficient.unsignedAbs) (signOf value), value.scale⟩ := by
  obtain ⟨hencodable, hwidth, hnibbles⟩ := encodePacked_eq_ok.mp h
  have hfield := packedField_of_encode hencodable hnibbles
  refine (decodePacked_eq_ok hencodable.2.1).mpr ⟨?_, _, _, _, hfield, ?_⟩
  · rw [hfield.width]
    exact hwidth
  · rw [spelled_digitsOf hencodable.2.2]

def PackedKeeps (value : Decimal) (digits : Nat) (signed : Bool) (limits : Limits) : Prop :=
  ∀ bytes, encodePacked value digits signed limits = .ok bytes →
    decodePacked bytes digits value.scale signed limits = .ok value

theorem packedKeeps_iff (value : Decimal) (digits : Nat) (signed : Bool) (limits : Limits) :
    PackedKeeps value digits signed limits ↔
      (Encodable value digits signed → packedWidth digits ≤ limits.maxBytes →
        value.coefficient.val ≠ i128Min) := by
  constructor
  · intro hkeeps hencodable hwidth
    obtain ⟨bytes, hpaired⟩ := pairNibbles_isSome (length_packedNibbles value digits signed)
    have hnibbles := (pairNibbles_eq_some (lt_of_mem_packedNibbles value digits signed)).mp hpaired
    have hencode := encodePacked_eq_ok.mpr ⟨hencodable, hwidth, hnibbles⟩
    have hsame := (decodePacked_encode hencode).symm.trans (hkeeps bytes hencode)
    exact (applySign_signOf_iff value).mp (congrArg Decimal.coefficient (Except.ok.inj hsame))
  · intro hleast bytes hencode
    obtain ⟨hencodable, hwidth, -⟩ := encodePacked_eq_ok.mp hencode
    rw [decodePacked_encode hencode, (applySign_signOf_iff value).mpr (hleast hencodable hwidth)]

def PackedReturns (bytes : Bytes) (digits : Nat) (scale : UInt32) (signed : Bool)
    (limits : Limits) : Prop :=
  ∀ value, decodePacked bytes digits scale signed limits = .ok value →
    encodePacked value digits signed limits = .ok bytes

/-- A field whose magnitude fits, under the sign nibble an encode writes for it. -/
def Canonical (magnitude nibble : Nat) : Prop :=
  (magnitude : Int) ≤ i128Max ∧ (nibble = 0x0c ∨ nibble = 0x0d ∧ magnitude ≠ 0)

theorem encodable_folded {drawn : List Nat} {sign : Sign} {nibble : Nat} (scale : UInt32)
    (hlength : drawn.length = digits) (hdigits : digits ≠ 0)
    (hbounded : ∀ digit ∈ drawn, digit ≤ 9)
    (hsign : Sign.Spells signed nibble sign) :
    Encodable ⟨applySign (.clamp (spelled drawn)) sign, scale⟩ digits signed := by
  obtain ⟨hmagnitude, hnegative⟩ := folded (spelled drawn) sign scale
  refine ⟨?_, hdigits, ?_⟩
  · rintro ⟨rfl, hbelow⟩
    rcases hsign with ⟨-, rfl⟩ | ⟨-, -, hsigned⟩
    · cases (hnegative.mp hbelow).1
    · cases hsigned
  · have hdrawn := (digitsOf_spelled hbounded).1
    rw [hlength] at hdrawn
    rw [hmagnitude]
    exact Nat.lt_of_le_of_lt (Nat.min_le_left _ _) hdrawn

theorem digits_kept_iff {drawn : List Nat} (sign : Sign) (hlength : drawn.length = digits)
    (hbounded : ∀ digit ∈ drawn, digit ≤ 9) :
    drawn = digitsOf digits (applySign (.clamp (spelled drawn)) sign).unsignedAbs ↔
      (spelled drawn : Int) ≤ i128Max := by
  have hdrawn := (digitsOf_spelled hbounded).1
  rw [(folded (spelled drawn) sign 0).1, ← hlength, eq_digitsOf_iff hbounded
    (Nat.lt_of_le_of_lt (Nat.min_le_left _ _) hdrawn)]
  unfold i128Max
  omega

theorem sign_kept_iff {magnitude nibble : Nat} {sign : Sign} (scale : UInt32)
    (hsign : Sign.Spells signed nibble sign) :
    (nibble = if signed && Decimal.isNegative ⟨applySign (.clamp magnitude) sign, scale⟩
      then 0x0d else 0x0c) ↔ nibble = 0x0c ∨ nibble = 0x0d ∧ magnitude ≠ 0 := by
  have hnegative := (folded magnitude sign scale).2
  rcases hsign with ⟨hnibble, rfl⟩ | ⟨hnibble, rfl, rfl⟩
  · have hplain : Decimal.isNegative ⟨applySign (.clamp magnitude) .positive, scale⟩ = false := by
      rw [← Bool.not_eq_true, hnegative]
      simp
    rw [hplain, Bool.and_false]
    simp
    omega
  · rw [Bool.true_and, hnibble]
    by_cases hzero : magnitude = 0
    · have hplain : Decimal.isNegative ⟨applySign (.clamp magnitude) .negative, scale⟩ =
          false := by
        rw [← Bool.not_eq_true, hnegative]
        simp [hzero]
      rw [hplain]
      simp [hzero]
    · simp [hnegative.mpr ⟨rfl, hzero⟩, hzero]

theorem packedReturns_iff (hdigits : digits ≠ 0) (bytes : Bytes) (scale : UInt32) (signed : Bool)
    (limits : Limits) :
    PackedReturns bytes digits scale signed limits ↔
      (bytes.length ≤ limits.maxBytes → ∀ drawn nibble sign,
        PackedField bytes digits signed drawn nibble sign → Canonical (spelled drawn) nibble) := by
  have hencode {drawn : List Nat} {nibble : Nat} {sign : Sign}
      (hbytes : bytes.length ≤ limits.maxBytes)
      (hfield : PackedField bytes digits signed drawn nibble sign) :
      encodePacked ⟨applySign (.clamp (spelled drawn)) sign, scale⟩ digits signed limits =
          .ok bytes ↔
        Canonical (spelled drawn) nibble := by
    unfold Canonical
    rw [encodePacked_eq_ok, ← digits_kept_iff sign hfield.length hfield.bounded,
      ← sign_kept_iff scale hfield.sign, hfield.layout, packedNibbles, List.append_assoc,
      List.append_cancel_left_eq]
    constructor
    · rintro ⟨-, -, hbody⟩
      obtain ⟨hdrawn, hnibble⟩ := List.append_inj' hbody rfl
      exact ⟨hdrawn, List.singleton_inj.mp hnibble⟩
    · rintro ⟨hdrawn, hnibble⟩
      refine ⟨encodable_folded scale hfield.length hdigits hfield.bounded hfield.sign, ?_, ?_⟩
      · rw [← hfield.width]
        exact hbytes
      · rw [← hdrawn, ← hnibble]
  constructor
  · intro hreturns hbytes drawn nibble sign hfield
    exact (hencode hbytes hfield).mp
      (hreturns _ ((decodePacked_eq_ok hdigits).mpr ⟨hbytes, drawn, nibble, sign, hfield, rfl⟩))
  · intro hcanonical value hvalue
    obtain ⟨hbytes, drawn, nibble, sign, hfield, rfl⟩ := (decodePacked_eq_ok hdigits).mp hvalue
    exact (hencode hbytes hfield).mpr (hcanonical hbytes drawn nibble sign hfield)

end Packed

/-! Zoned fields: the bytes in front of the last, and the last one. -/

section Zoned

variable {digits : Nat} {signed : Bool} {limits : Limits}

theorem zones_append_singleton (front : Bytes) (byte : UInt8) {sign : Sign} :
    Zones signed sign (front ++ [byte]) ↔
      (∀ other ∈ front, other.toNat / 16 = 0x0f) ∧ Zones signed sign [byte] := by
  induction front with
  | nil => simp
  | cons first rest ih =>
    rw [List.forall_mem_cons, and_assoc, ← ih]
    cases hrest : rest ++ [byte] with
    | nil => simp at hrest
    | cons next others =>
      rw [List.cons_append, hrest]
      rfl

theorem eq_ofNat_iff {byte : UInt8} {zone digit : Nat} (hzone : zone < 16) (hdigit : digit ≤ 9) :
    byte = UInt8.ofNat (zone * 16 + digit) ↔ byte.toNat / 16 = zone ∧ byte.toNat % 16 = digit := by
  rw [← UInt8.toNat_inj, UInt8.toNat_ofNat', Nat.mod_eq_of_lt (by omega)]
  omega

theorem eq_map_ofNat_iff {front : Bytes} {drawn : List Nat} (hdrawn : ∀ digit ∈ drawn, digit ≤ 9) :
    front = drawn.map (fun digit => UInt8.ofNat (0x0f * 16 + digit)) ↔
      (∀ byte ∈ front, byte.toNat / 16 = 0x0f) ∧ lows front = drawn := by
  induction front generalizing drawn with
  | nil => cases drawn <;> simp [lows]
  | cons byte rest ih =>
    cases drawn with
    | nil => simp [lows]
    | cons digit drawn =>
      obtain ⟨hdigit, hbehind⟩ := List.forall_mem_cons.mp hdrawn
      have hlows : lows (byte :: rest) = byte.toNat % 16 :: lows rest := rfl
      rw [List.map_cons, List.cons.injEq, eq_ofNat_iff (by decide) hdigit, ih hbehind, hlows,
        List.cons.injEq, List.forall_mem_cons]
      tauto

def lastZone (value : Decimal) (signed : Bool) : Nat :=
  if signed then (if value.isNegative then 0x0d else 0x0c) else 0x0f

theorem zoned_digits (value : Decimal) (signed : Bool) (count magnitude : Nat) :
    ((digitsOf (count + 1) magnitude).mapIdx fun offset digit =>
      UInt8.ofNat (zoneOf value signed (count + 1 - 1) offset * 16 + digit)) =
      (digitsOf count (magnitude / 10)).map (fun digit => UInt8.ofNat (0x0f * 16 + digit)) ++
        [UInt8.ofNat (lastZone value signed * 16 + magnitude % 10)] := by
  have hlast : zoneOf value signed count count = lastZone value signed := by
    unfold zoneOf lastZone
    cases signed <;> simp
  rw [digitsOf, List.mapIdx_append, Nat.add_sub_cancel]
  congr 1
  · apply List.ext_getElem
    · rw [List.length_mapIdx, List.length_map]
    · intro offset hoffset _
      rw [List.length_mapIdx, length_digitsOf] at hoffset
      have hinner : zoneOf value signed count offset = 0x0f :=
        if_neg fun h => absurd h.1 (Nat.ne_of_lt hoffset)
      rw [List.getElem_mapIdx, List.getElem_map, hinner]
  · rw [length_digitsOf, List.mapIdx_singleton, Nat.zero_add, hlast]

theorem encodeZoned_eq_ok {value : Decimal} {front : Bytes} {byte : UInt8} :
    encodeZoned value (front.length + 1) signed limits = .ok (front ++ [byte]) ↔
      front.length + 1 ≤ limits.maxBytes ∧ Encodable value (front.length + 1) signed ∧
        (∀ other ∈ front, other.toNat / 16 = 0x0f) ∧ byte.toNat / 16 = lastZone value signed ∧
          lows (front ++ [byte]) = digitsOf (front.length + 1) value.coefficient.unsignedAbs := by
  have hzone : lastZone value signed < 16 := by
    unfold lastZone
    split
    · split <;> decide
    · decide
  have hlows : lows (front ++ [byte]) = lows front ++ [byte.toNat % 16] := List.map_append
  have hbytes (magnitude : Nat) :
      ((digitsOf (front.length + 1) magnitude).mapIdx fun offset digit =>
          UInt8.ofNat (zoneOf value signed (front.length + 1 - 1) offset * 16 + digit)) =
          front ++ [byte] ↔
        (∀ other ∈ front, other.toNat / 16 = 0x0f) ∧ byte.toNat / 16 = lastZone value signed ∧
          lows (front ++ [byte]) = digitsOf (front.length + 1) magnitude := by
    have hbounded := le_nine_of_mem_digitsOf front.length (magnitude / 10)
    rw [zoned_digits, eq_comm, List.append_singleton_inj, eq_map_ofNat_iff hbounded,
      eq_ofNat_iff hzone (by omega), hlows, digitsOf, List.append_singleton_inj]
    tauto
  unfold encodeZoned Limits.checkBytes
  simp only [bind_eq_ok, require_eq_ok, checkEncodable_eq_ok, pure_eq_ok, hbytes]
  constructor
  · rintro ⟨_, hwidth, _, hencodable, hfield⟩
    exact ⟨hwidth, hencodable, hfield⟩
  · rintro ⟨hwidth, hencodable, hfield⟩
    exact ⟨(), hwidth, (), hencodable, hfield⟩

theorem zones_encoded {value : Decimal} {byte : UInt8} (hencodable : Encodable value digits signed)
    (hzone : byte.toNat / 16 = lastZone value signed) : Zones signed (signOf value) [byte] := by
  obtain ⟨hsign, -⟩ := hencodable
  unfold Zones
  unfold lastZone at hzone
  unfold signOf Sign.Spells
  cases hnegative : value.isNegative with
  | false =>
    rw [hnegative] at hzone
    cases signed <;> simp_all
  | true =>
    rw [hnegative] at hzone hsign
    cases signed with
    | false => exact absurd ⟨rfl, rfl⟩ hsign
    | true => simp_all

theorem exists_concat {bytes : Bytes} (hlength : bytes.length = digits) (hdigits : digits ≠ 0) :
    ∃ front byte, bytes = front ++ [byte] ∧ digits = front.length + 1 := by
  rcases List.eq_nil_or_concat bytes with rfl | ⟨front, byte, hbytes⟩
  · exact absurd hlength.symm hdigits
  · rw [List.concat_eq_append] at hbytes
    refine ⟨front, byte, hbytes, ?_⟩
    rw [← hlength, hbytes, List.length_append, List.length_singleton]

theorem length_of_encodeZoned {value : Decimal} {bytes : Bytes}
    (h : encodeZoned value digits signed limits = .ok bytes) : bytes.length = digits := by
  unfold encodeZoned Limits.checkBytes at h
  simp only [bind_eq_ok, pure_eq_ok] at h
  obtain ⟨_, -, _, -, rfl⟩ := h
  rw [List.length_mapIdx, length_digitsOf]

theorem encodeZoned_isOk {value : Decimal} (hencodable : Encodable value digits signed)
    (hwidth : digits ≤ limits.maxBytes) :
    ∃ bytes, encodeZoned value digits signed limits = .ok bytes := by
  unfold encodeZoned Limits.checkBytes
  simp only [bind_eq_ok, require_eq_ok, checkEncodable_eq_ok, pure_eq_ok]
  exact ⟨_, (), hwidth, (), hencodable, rfl⟩

theorem decodeZoned_encode {value : Decimal} {bytes : Bytes} (hdigits : digits ≠ 0)
    (h : encodeZoned value digits signed limits = .ok bytes) :
    decodeZoned bytes digits signed limits =
      .ok ⟨applySign (.clamp value.coefficient.unsignedAbs) (signOf value), 0⟩ := by
  obtain ⟨front, byte, rfl, rfl⟩ := exists_concat (length_of_encodeZoned h) hdigits
  obtain ⟨hwidth, hencodable, hfront, hzone, hlows⟩ := encodeZoned_eq_ok.mp h
  refine decodeZoned_eq_ok.mpr ⟨?_, signOf value, ⟨?_, ?_, ?_⟩, ?_⟩
  · rwa [List.length_append, List.length_singleton]
  · rw [List.length_append, List.length_singleton]
  · rw [hlows]
    exact le_nine_of_mem_digitsOf _ _
  · exact (zones_append_singleton front byte).mpr ⟨hfront, zones_encoded hencodable hzone⟩
  · rw [hlows, spelled_digitsOf hencodable.2.2]

def ZonedKeeps (value : Decimal) (digits : Nat) (signed : Bool) (limits : Limits) : Prop :=
  ∀ bytes, encodeZoned value digits signed limits = .ok bytes →
    decodeZoned bytes digits signed limits = .ok ⟨value.coefficient, 0⟩

theorem zonedKeeps_iff (hdigits : digits ≠ 0) (value : Decimal) (signed : Bool) (limits : Limits) :
    ZonedKeeps value digits signed limits ↔
      (Encodable value digits signed → digits ≤ limits.maxBytes →
        value.coefficient.val ≠ i128Min) := by
  constructor
  · intro hkeeps hencodable hwidth
    obtain ⟨bytes, hencode⟩ := encodeZoned_isOk hencodable hwidth
    have hsame := (decodeZoned_encode hdigits hencode).symm.trans (hkeeps bytes hencode)
    exact (applySign_signOf_iff value).mp (congrArg Decimal.coefficient (Except.ok.inj hsame))
  · intro hleast bytes hencode
    have hlength := length_of_encodeZoned hencode
    obtain ⟨front, byte, rfl, rfl⟩ := exists_concat hlength hdigits
    obtain ⟨hwidth, hencodable, -⟩ := encodeZoned_eq_ok.mp hencode
    rw [decodeZoned_encode hdigits hencode,
      (applySign_signOf_iff value).mpr (hleast hencodable hwidth)]

def ZonedReturns (bytes : Bytes) (digits : Nat) (signed : Bool) (limits : Limits) : Prop :=
  ∀ value, decodeZoned bytes digits signed limits = .ok value →
    encodeZoned value digits signed limits = .ok bytes

def ZonedCanonical (bytes : Bytes) (signed : Bool) : Prop :=
  (spelled (lows bytes) : Int) ≤ i128Max ∧
    (signed = true → ∀ byte, bytes.getLast? = some byte →
      byte.toNat / 16 = 0x0c ∨ byte.toNat / 16 = 0x0d ∧ spelled (lows bytes) ≠ 0)

theorem zonedReturns_iff (hdigits : digits ≠ 0) (bytes : Bytes) (signed : Bool) (limits : Limits) :
    ZonedReturns bytes digits signed limits ↔
      (bytes.length ≤ limits.maxBytes → ∀ sign, ZonedField bytes digits signed sign →
        ZonedCanonical bytes signed) := by
  have hencode {sign : Sign} (hbytes : bytes.length ≤ limits.maxBytes)
      (hfield : ZonedField bytes digits signed sign) :
      encodeZoned ⟨applySign (.clamp (spelled (lows bytes))) sign, 0⟩ digits signed limits =
        .ok bytes ↔ ZonedCanonical bytes signed := by
    have hdrawn : (lows bytes).length = digits := (List.length_map _).trans hfield.length
    have hkept := digits_kept_iff sign hdrawn hfield.bounded
    obtain ⟨front, byte, rfl, rfl⟩ := exists_concat hfield.length hdigits
    obtain ⟨hfront, hlast⟩ := (zones_append_singleton front byte).mp hfield.zones
    rw [encodeZoned_eq_ok]
    unfold ZonedCanonical lastZone
    rw [hkept, List.getLast?_append, List.getLast?_singleton, Option.some_or]
    have hwidth : front.length + 1 ≤ limits.maxBytes := by
      rwa [List.length_append, List.length_singleton] at hbytes
    cases signed with
    | true =>
      have hspells : Sign.Spells true (byte.toNat / 16) sign := hlast
      have hencodable := encodable_folded 0 hdrawn hdigits hfield.bounded hspells
      have hsign := @sign_kept_iff true (spelled (lows (front ++ [byte]))) _ _ 0 hspells
      rw [Bool.true_and] at hsign
      simp only [if_true, hsign, Option.some_inj, forall_const, forall_eq']
      constructor
      · rintro ⟨-, -, -, hzone, hfits⟩
        exact ⟨hfits, hzone⟩
      · rintro ⟨hfits, hzone⟩
        exact ⟨hwidth, hencodable, hfront, hzone, hfits⟩
    | false =>
      have hplain : byte.toNat / 16 = 0x0f ∧ sign = .positive := hlast
      have hspells : Sign.Spells false 0x0f sign := .inl ⟨.inr rfl, hplain.2⟩
      have hencodable := encodable_folded 0 hdrawn hdigits hfield.bounded hspells
      simp only [Bool.false_eq_true, if_false, false_implies, and_true]
      constructor
      · rintro ⟨-, -, -, -, hfits⟩
        exact hfits
      · intro hfits
        exact ⟨hwidth, hencodable, hfront, hplain.1, hfits⟩
  constructor
  · intro hreturns hbytes sign hfield
    exact (hencode hbytes hfield).mp
      (hreturns _ (decodeZoned_eq_ok.mpr ⟨hbytes, sign, hfield, rfl⟩))
  · intro hcanonical value hvalue
    obtain ⟨hbytes, sign, hfield, rfl⟩ := decodeZoned_eq_ok.mp hvalue
    exact (hencode hbytes hfield).mpr (hcanonical hbytes sign hfield)

end Zoned

/-- In a picture of at least one digit the bytes come back where the field is canonical, and the
values come back where they are not the least coefficient. -/
theorem bytes_return_iff (bytes : Bytes) (value : Decimal) (digits : Nat) (scale : UInt32)
    (signed : Bool) (limits : Limits) (hdigits : digits ≠ 0) :
    (PackedReturns bytes digits scale signed limits ↔
      (bytes.length ≤ limits.maxBytes → ∀ drawn nibble sign,
        PackedField bytes digits signed drawn nibble sign → Canonical (spelled drawn) nibble)) ∧
    (ZonedReturns bytes digits signed limits ↔
      (bytes.length ≤ limits.maxBytes → ∀ sign, ZonedField bytes digits signed sign →
        ZonedCanonical bytes signed)) ∧
    (PackedKeeps value digits signed limits ↔
      (Encodable value digits signed → packedWidth digits ≤ limits.maxBytes →
        value.coefficient.val ≠ i128Min)) ∧
    (ZonedKeeps value digits signed limits ↔
      (Encodable value digits signed → digits ≤ limits.maxBytes →
        value.coefficient.val ≠ i128Min)) :=
  ⟨packedReturns_iff hdigits bytes scale signed limits,
    zonedReturns_iff hdigits bytes signed limits, packedKeeps_iff value digits signed limits,
    zonedKeeps_iff hdigits value signed limits⟩

theorem bytes_return_one_digit :
    (1 : Nat) ≠ 0 ∧ (PackedReturns [0x1c] 1 0 true ⟨8⟩ ↔
      ((1 : Nat) ≤ 8 → ∀ drawn nibble sign, PackedField [0x1c] 1 true drawn nibble sign →
        Canonical (spelled drawn) nibble)) :=
  ⟨by decide, (bytes_return_iff [0x1c] ⟨.clamp 1, 0⟩ 1 0 true ⟨8⟩ (by decide)).1⟩

/-- One under the sign nibble of an unsigned field decodes, and is encoded under another. -/
theorem plain_sign_changed : ¬PackedReturns [0x1f] 1 0 true ⟨8⟩ := by
  intro hreturns
  exact absurd (hreturns ⟨.clamp 1, 0⟩ (by decide)) (by decide)

end LogicalWorks.Legacy
