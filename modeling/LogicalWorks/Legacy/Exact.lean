import LogicalWorks.Legacy.Fields

/-! Exactness: what a decode or a text's reading answers is the number written, and when not. -/
namespace LogicalWorks.Legacy

/-! Texts. -/

def wholePart (body : Bytes) : Bytes := body.takeWhile fun byte => byte ≠ 0x2e

def fractionPart (body : Bytes) : Bytes := (body.dropWhile fun byte => byte ≠ 0x2e).drop 1

def digitPart (body : Bytes) : Bytes := wholePart body ++ fractionPart body

def values (bytes : Bytes) : List Nat := bytes.map Decimal.digitValue

theorem spelled_values (digits : Bytes) : spelled (values digits) = Decimal.number digits := by
  unfold spelled values Decimal.number
  rw [List.foldl_map]

theorem saturatingSucc_ofNat (count : Nat) :
    saturatingSucc (UInt32.ofNat (min count u32Max)) = UInt32.ofNat (min (count + 1) u32Max) := by
  have hsmall : min count u32Max < 2 ^ 32 := by
    unfold u32Max
    omega
  have hcount : (UInt32.ofNat (min count u32Max)).toNat = min count u32Max := by
    rw [UInt32.toNat_ofNat', Nat.mod_eq_of_lt hsmall]
  unfold saturatingSucc
  rw [hcount]
  congr 1
  omega

theorem le_nine_of_isDigit {byte : UInt8} (h : Decimal.isDigit byte = true) :
    Decimal.digitValue byte ≤ 9 := Nat.le_of_lt_succ (Decimal.digit_digitValue h).1

theorem readBytes_pointed {offset : Nat} {bytes : Bytes} {accumulator : I128} {places digits : Nat}
    {reading : Reading} :
    readBytes offset bytes ⟨accumulator, UInt32.ofNat (min places u32Max), true, digits⟩ =
        .ok reading ↔
      (∀ byte ∈ bytes, Decimal.isDigit byte = true) ∧
        reading = ⟨(values bytes).foldl push accumulator,
          UInt32.ofNat (min (places + bytes.length) u32Max), true, digits + bytes.length⟩ := by
  induction bytes generalizing offset accumulator places digits with
  | nil =>
    constructor
    · intro h
      cases h
      exact ⟨by simp, rfl⟩
    · rintro ⟨-, rfl⟩
      rfl
  | cons byte rest ih =>
    rw [readBytes, if_neg (by simp)]
    simp only [bind_eq_ok, require_eq_ok, foldDigit_eq_ok, if_true, saturatingSucc_ofNat, ih]
    have hplaces : places + 1 + rest.length = places + (byte :: rest).length := by
      rw [List.length_cons]
      omega
    have hdigits : digits + 1 + rest.length = digits + (byte :: rest).length := by
      rw [List.length_cons]
      omega
    rw [hplaces, hdigits, List.forall_mem_cons]
    constructor
    · rintro ⟨_, hdigit, _, ⟨-, rfl⟩, hrest, rfl⟩
      exact ⟨⟨hdigit, hrest⟩, rfl⟩
    · rintro ⟨⟨hdigit, hrest⟩, rfl⟩
      exact ⟨(), hdigit, _, ⟨le_nine_of_isDigit hdigit, rfl⟩, hrest, rfl⟩

theorem readBytes_eq_ok {offset : Nat} {bytes : Bytes} {accumulator : I128} {digits : Nat}
    {reading : Reading} :
    readBytes offset bytes ⟨accumulator, 0, false, digits⟩ = .ok reading ↔
      (∀ byte ∈ digitPart bytes, Decimal.isDigit byte = true) ∧
        reading = ⟨(values (digitPart bytes)).foldl push accumulator,
          UInt32.ofNat (min (fractionPart bytes).length u32Max), bytes.contains 0x2e,
          digits + (digitPart bytes).length⟩ := by
  induction bytes generalizing offset accumulator digits with
  | nil =>
    constructor
    · intro h
      cases h
      exact ⟨by simp [digitPart, wholePart, fractionPart], rfl⟩
    · rintro ⟨-, rfl⟩
      rfl
  | cons byte rest ih =>
    by_cases hpoint : byte = 0x2e
    · have hfraction : fractionPart (byte :: rest) = rest := by simp [fractionPart, hpoint]
      have hdigits : digitPart (byte :: rest) = rest := by
        simp [digitPart, wholePart, hpoint, fractionPart]
      have hcontains : (byte :: rest).contains 0x2e = true := by simp [hpoint]
      rw [readBytes, if_pos ⟨hpoint, rfl⟩, hfraction, hdigits, hcontains]
      have hpointed := @readBytes_pointed (offset + 1) rest accumulator 0 digits reading
      rw [Nat.zero_add] at hpointed
      exact hpointed
    · have hfraction : fractionPart (byte :: rest) = fractionPart rest := by
        simp [fractionPart, hpoint]
      have hdigits : digitPart (byte :: rest) = byte :: digitPart rest := by
        simp [digitPart, wholePart, hpoint, fractionPart]
      have hcontains : (byte :: rest).contains 0x2e = rest.contains 0x2e := by
        simp [Ne.symm hpoint]
      have hcount : digits + 1 + (digitPart rest).length = digits + (byte :: digitPart rest).length := by
        rw [List.length_cons]
        omega
      rw [readBytes, if_neg fun h => hpoint h.1, hfraction, hdigits, hcontains]
      simp only [bind_eq_ok, require_eq_ok, foldDigit_eq_ok, Bool.false_eq_true, if_false, ih, hcount,
        List.forall_mem_cons]
      constructor
      · rintro ⟨_, hdigit, _, ⟨-, rfl⟩, hrest, rfl⟩
        exact ⟨⟨hdigit, hrest⟩, rfl⟩
      · rintro ⟨⟨hdigit, hrest⟩, rfl⟩
        exact ⟨(), hdigit, _, ⟨le_nine_of_isDigit hdigit, rfl⟩, hrest, rfl⟩

/-- A text of digits: at least one, behind a sign or none, with a point among them or none. -/
structure Numeral (text : Bytes) : Prop where
  digits : ∀ byte ∈ digitPart (stripSign text).2, Decimal.isDigit byte = true
  some : digitPart (stripSign text).2 ≠ []

def magnitudeOf (text : Bytes) : Nat := Decimal.number (digitPart (stripSign text).2)

def placesOf (text : Bytes) : Nat := (fractionPart (stripSign text).2).length

theorem fromStr_eq_ok {text : Bytes} {value : Decimal} :
    fromStr text = .ok value ↔ Numeral text ∧
      value = ⟨applySign (.clamp (magnitudeOf text)) (stripSign text).1,
        UInt32.ofNat (min (placesOf text) u32Max)⟩ := by
  unfold fromStr
  simp only [bind_eq_ok, require_eq_ok, pure_eq_ok, readBytes_eq_ok]
  constructor
  · rintro ⟨_, ⟨hdigits, rfl⟩, _, hsome, rfl⟩
    refine ⟨⟨hdigits, ?_⟩, ?_⟩
    · rintro hempty
      exact hsome (by simp [hempty])
    · rw [foldl_push_zero, spelled_values]
      rfl
  · rintro ⟨hnumeral, rfl⟩
    refine ⟨_, ⟨hnumeral.digits, rfl⟩, (), ?_, ?_⟩
    · simpa using hnumeral.some
    · rw [foldl_push_zero, spelled_values]
      rfl

/-! What is accepted is what is written, so that a value past the type has to be refused. -/

def PackedExact (bytes : Bytes) (digits : Nat) (scale : UInt32) (signed : Bool) (limits : Limits) :
    Prop :=
  ∀ value, decodePacked bytes digits scale signed limits = .ok value →
    ∃ drawn nibble sign, PackedField bytes digits signed drawn nibble sign ∧
      value.coefficient.val = sign.apply (spelled drawn)

def ZonedExact (bytes : Bytes) (digits : Nat) (signed : Bool) (limits : Limits) : Prop :=
  ∀ value, decodeZoned bytes digits signed limits = .ok value →
    ∃ sign, ZonedField bytes digits signed sign ∧
      value.coefficient.val = sign.apply (spelled (lows bytes))

def writtenBy (text : Bytes) : Int := (stripSign text).1.apply (magnitudeOf text)

def TextExact (text : Bytes) : Prop :=
  ∀ value, fromStr text = .ok value →
    (i128Min ≤ writtenBy text ∧ writtenBy text ≤ i128Max) ∧
      value.coefficient.val * 10 ^ placesOf text = writtenBy text * 10 ^ value.scale.toNat

def ReadsBack (value : Decimal) : Prop := ∃ text, render value = some text ∧ fromStr text = .ok value

/-- The fields that are too long for the type, and the byte that a picture of no digits accepts. -/
def PackedFits (bytes : Bytes) (digits : Nat) (signed : Bool) (limits : Limits) : Prop :=
  bytes.length ≤ limits.maxBytes →
    (digits = 0 → ∀ byte, bytes = [byte] → 9 < byte.toNat) ∧
      ∀ drawn nibble sign, PackedField bytes digits signed drawn nibble sign →
        (spelled drawn : Int) ≤ i128Max

def ZonedFits (bytes : Bytes) (digits : Nat) (signed : Bool) (limits : Limits) : Prop :=
  bytes.length ≤ limits.maxBytes →
    ∀ sign, ZonedField bytes digits signed sign → (spelled (lows bytes) : Int) ≤ i128Max

def TextFits (text : Bytes) : Prop :=
  Numeral text →
    (magnitudeOf text : Int) ≤ i128Max ∧ (placesOf text ≤ u32Max ∨ magnitudeOf text = 0)

theorem packedExact_iff (bytes : Bytes) (digits : Nat) (scale : UInt32) (signed : Bool)
    (limits : Limits) :
    PackedExact bytes digits scale signed limits ↔ PackedFits bytes digits signed limits := by
  by_cases hdigits : digits = 0
  · subst hdigits
    constructor
    · intro hexact hbytes
      constructor
      · rintro - byte rfl
        by_contra hbound
        obtain ⟨drawn, nibble, sign, hfield, -⟩ := hexact ⟨.clamp byte.toNat, scale⟩
          (decodePacked_zero_eq_ok.mpr ⟨hbytes, byte, rfl, Nat.le_of_not_lt hbound, rfl⟩)
        have hlayout := hfield.layout
        rw [List.length_eq_zero_iff.mp hfield.length] at hlayout
        have hnibble : byte.toNat % 16 = nibble := by
          simp [pad] at hlayout
          exact hlayout.2
        rcases hfield.sign with ⟨hsign, -⟩ | ⟨hsign, -⟩ <;> omega
      · intro drawn nibble sign hfield
        rw [List.length_eq_zero_iff.mp hfield.length]
        decide
    · intro hfits value hvalue
      obtain ⟨hbytes, byte, rfl, hbound, -⟩ := decodePacked_zero_eq_ok.mp hvalue
      exact absurd ((hfits hbytes).1 rfl byte rfl) (Nat.not_lt.mpr hbound)
  · constructor
    · intro hexact hbytes
      refine ⟨fun h => absurd h hdigits, fun drawn nibble sign hfield => ?_⟩
      obtain ⟨others, other, reading, hother, hvalue⟩ := hexact _
        ((decodePacked_eq_ok hdigits).mpr ⟨hbytes, drawn, nibble, sign, hfield, rfl⟩)
      obtain ⟨rfl, rfl, rfl⟩ := hfield.eq hother
      exact (applySign_exact_iff _ _).mp hvalue
    · intro hfits value hvalue
      obtain ⟨hbytes, drawn, nibble, sign, hfield, rfl⟩ := (decodePacked_eq_ok hdigits).mp hvalue
      exact ⟨drawn, nibble, sign, hfield,
        (applySign_exact_iff _ _).mpr ((hfits hbytes).2 drawn nibble sign hfield)⟩

theorem zonedExact_iff (bytes : Bytes) (digits : Nat) (signed : Bool) (limits : Limits) :
    ZonedExact bytes digits signed limits ↔ ZonedFits bytes digits signed limits := by
  constructor
  · intro hexact hbytes sign hfield
    obtain ⟨other, hother, hvalue⟩ :=
      hexact _ (decodeZoned_eq_ok.mpr ⟨hbytes, sign, hfield, rfl⟩)
    cases hfield.zones.eq hother.zones
    exact (applySign_exact_iff _ _).mp hvalue
  · intro hfits value hvalue
    obtain ⟨hbytes, sign, hfield, rfl⟩ := decodeZoned_eq_ok.mp hvalue
    exact ⟨sign, hfield, (applySign_exact_iff _ _).mpr (hfits hbytes sign hfield)⟩

/-- Places cut at the end of their type change a number that is not zero. -/
theorem scaled_iff (magnitude places : Nat) :
    magnitude * 10 ^ places = magnitude * 10 ^ min places u32Max ↔
      places ≤ u32Max ∨ magnitude = 0 := by
  constructor
  · intro h
    rcases Nat.eq_zero_or_pos magnitude with hzero | hpos
    · exact .inr hzero
    · have hpowers : 10 ^ places = 10 ^ min places u32Max := Nat.eq_of_mul_eq_mul_left hpos h
      have hplaces := Nat.pow_right_injective (by decide) hpowers
      omega
  · rintro (h | rfl)
    · rw [Nat.min_eq_left h]
    · rw [Nat.zero_mul, Nat.zero_mul]

theorem toNat_places (places : Nat) : (UInt32.ofNat (min places u32Max)).toNat = min places u32Max := by
  have hsmall : min places u32Max < 2 ^ 32 := by
    unfold u32Max
    omega
  rw [UInt32.toNat_ofNat', Nat.mod_eq_of_lt hsmall]

theorem Sign.apply_mul_inj {sign : Sign} {magnitude left right : Nat} :
    sign.apply magnitude * 10 ^ left = sign.apply magnitude * 10 ^ right ↔
      magnitude * 10 ^ left = magnitude * 10 ^ right := by
  cases sign with
  | positive =>
    change (magnitude : Int) * 10 ^ left = magnitude * 10 ^ right ↔ _
    norm_cast
  | negative =>
    change -(magnitude : Int) * 10 ^ left = -magnitude * 10 ^ right ↔ _
    rw [Int.neg_mul, Int.neg_mul, Int.neg_inj]
    norm_cast

/-- The one value of the type whose magnitude does not fold exactly is not what it saturates to, at
any scale. -/
theorem not_scaled_min {places cut : Nat} (hcut : cut ≤ places) :
    -i128Max * 10 ^ places ≠ i128Min * 10 ^ cut := by
  obtain ⟨more, rfl⟩ := Nat.exists_eq_add_of_le hcut
  intro h
  have hpos : (0 : Int) < 10 ^ cut := Int.pow_pos (by decide)
  rw [Int.pow_add, Int.mul_comm (10 ^ cut), ← Int.mul_assoc] at h
  have hscaled := Int.eq_of_mul_eq_mul_right (Int.ne_of_gt hpos) h
  unfold i128Max i128Min at hscaled
  cases more with
  | zero => omega
  | succ more =>
    rw [Int.pow_succ] at hscaled
    omega

theorem le_max_of_fits {text : Bytes} {value : Decimal} (hlow : i128Min ≤ writtenBy text)
    (hhigh : writtenBy text ≤ i128Max) (hvalue : fromStr text = .ok value)
    (hscaled : value.coefficient.val * 10 ^ placesOf text =
      writtenBy text * 10 ^ value.scale.toNat) :
    (magnitudeOf text : Int) ≤ i128Max := by
  obtain ⟨-, rfl⟩ := fromStr_eq_ok.mp hvalue
  unfold writtenBy at hlow hhigh hscaled
  cases hsign : (stripSign text).1 with
  | positive =>
    rw [hsign] at hhigh
    exact hhigh
  | negative =>
    rw [hsign] at hlow hscaled
    change i128Min ≤ -(magnitudeOf text : Int) at hlow
    by_contra hpast
    have hmin : -(magnitudeOf text : Int) = i128Min := by
      unfold i128Min i128Max at *
      omega
    have hcoefficient : (applySign (.clamp (magnitudeOf text)) .negative).val = -i128Max := by
      change max i128Min (min (-(I128.clamp (magnitudeOf text)).val) i128Max) = _
      rw [I128.val_clamp_natCast]
      unfold i128Min i128Max at *
      omega
    refine not_scaled_min (Nat.min_le_left (placesOf text) u32Max) ?_
    rw [← hcoefficient, ← hmin, ← toNat_places]
    exact hscaled

theorem textExact_iff (text : Bytes) : TextExact text ↔ TextFits text := by
  constructor
  · intro hexact hnumeral
    have hvalue := fromStr_eq_ok.mpr ⟨hnumeral, rfl⟩
    obtain ⟨⟨hlow, hhigh⟩, hscaled⟩ := hexact _ hvalue
    have hmagnitude := le_max_of_fits hlow hhigh hvalue hscaled
    refine ⟨hmagnitude, (scaled_iff _ _).mp ?_⟩
    rw [(applySign_exact_iff _ _).mpr hmagnitude, toNat_places] at hscaled
    exact Sign.apply_mul_inj.mp hscaled
  · intro hfits value hvalue
    obtain ⟨hnumeral, rfl⟩ := fromStr_eq_ok.mp hvalue
    obtain ⟨hmagnitude, hplaces⟩ := hfits hnumeral
    have hcoefficient := (applySign_exact_iff _ (stripSign text).1).mpr hmagnitude
    refine ⟨?_, ?_⟩
    · unfold writtenBy
      rw [← hcoefficient]
      exact ⟨I128.low _, I128.high _⟩
    · rw [hcoefficient, toNat_places]
      exact Sign.apply_mul_inj.mpr ((scaled_iff _ _).mpr hplaces)

/-! A value read back. -/

theorem magnitudeDigits_pos (magnitude : Nat) : 0 < magnitudeDigits magnitude := by
  unfold magnitudeDigits
  split
  · exact Nat.one_pos
  · exact List.length_pos_iff.mpr (Nat.digits_ne_nil_iff_ne_zero.mpr ‹_›)

theorem lt_pow_magnitudeDigits (magnitude : Nat) : magnitude < 10 ^ magnitudeDigits magnitude := by
  unfold magnitudeDigits
  split
  · omega
  · exact Nat.lt_base_pow_length_digits (by decide)

theorem number_replicate_append (count : Nat) (digits : Bytes) :
    Decimal.number (List.replicate count 0x30 ++ digits) = Decimal.number digits := by
  induction count with
  | zero => rfl
  | succ count ih =>
    rw [List.replicate_succ, List.cons_append, ← ih]
    rfl

theorem ne_point_of_isDigit {byte : UInt8} (h : Decimal.isDigit byte = true) : byte ≠ 0x2e := by
  rintro rfl
  exact absurd h (by decide)

theorem parts_of_point {whole : Bytes} (fraction : Bytes)
    (h : ∀ byte ∈ whole, Decimal.isDigit byte = true) :
    wholePart (whole ++ 0x2e :: fraction) = whole ∧
      fractionPart (whole ++ 0x2e :: fraction) = fraction := by
  have hplain : ∀ byte ∈ whole, decide (byte ≠ 0x2e) = true := fun byte hbyte =>
    decide_eq_true (ne_point_of_isDigit (h byte hbyte))
  unfold wholePart fractionPart
  rw [List.takeWhile_append_of_pos hplain, List.dropWhile_append_of_pos hplain]
  simp

theorem parts_of_whole {whole : Bytes} (h : ∀ byte ∈ whole, Decimal.isDigit byte = true) :
    wholePart whole = whole ∧ fractionPart whole = [] := by
  have hplain : ∀ byte ∈ whole, decide (byte ≠ 0x2e) = true := fun byte hbyte =>
    decide_eq_true (ne_point_of_isDigit (h byte hbyte))
  unfold wholePart fractionPart
  rw [List.takeWhile_eq_self_iff.mpr hplain, List.dropWhile_eq_nil_iff.mpr hplain]
  exact ⟨rfl, rfl⟩

theorem stripSign_signed (value : Decimal) {first : UInt8} (rest : Bytes)
    (h : Decimal.isDigit first = true) :
    stripSign ((if value.isNegative then [0x2d] else []) ++ first :: rest) =
      (signOf value, first :: rest) := by
  have hminus : first ≠ 0x2d := by
    rintro rfl
    exact absurd h (by decide)
  have hplus : first ≠ 0x2b := by
    rintro rfl
    exact absurd h (by decide)
  unfold signOf
  cases value.isNegative with
  | true => rfl
  | false =>
    change stripSign (first :: rest) = _
    rw [stripSign, if_neg hminus, if_neg hplus]
    rfl

theorem fromStr_signed (value : Decimal) {body : Bytes} {places magnitude : Nat}
    (hwhole : 0 < (wholePart body).length)
    (hdigits : ∀ byte ∈ digitPart body, Decimal.isDigit byte = true)
    (hnumber : Decimal.number (digitPart body) = magnitude)
    (hplaces : (fractionPart body).length = places) :
    fromStr ((if value.isNegative then [0x2d] else []) ++ body) =
      .ok ⟨applySign (.clamp magnitude) (signOf value), UInt32.ofNat (min places u32Max)⟩ := by
  have hstrip : stripSign ((if value.isNegative then [0x2d] else []) ++ body) =
      (signOf value, body) := by
    cases body with
    | nil => exact absurd hwhole (Nat.lt_irrefl 0)
    | cons first rest =>
      apply stripSign_signed
      by_cases hpoint : first = 0x2e
      · simp [wholePart, hpoint] at hwhole
      · apply hdigits
        simp [digitPart, wholePart, hpoint]
  apply fromStr_eq_ok.mpr
  unfold magnitudeOf placesOf
  rw [hstrip, hnumber, hplaces]
  refine ⟨⟨?_, ?_⟩, rfl⟩
  · rw [hstrip]
    exact hdigits
  · rw [hstrip]
    change wholePart body ++ fractionPart body ≠ []
    exact List.append_ne_nil_of_left_ne_nil (List.ne_nil_of_length_pos hwhole) _

theorem ofNat_scale (scale : UInt32) : UInt32.ofNat (min scale.toNat u32Max) = scale := by
  have hsmall : scale.toNat ≤ u32Max := Nat.le_of_lt_succ scale.toNat_lt
  rw [Nat.min_eq_left hsmall, UInt32.ofNat_toNat]

theorem render_eq {value : Decimal} (hwidth : value.scale.toNat < maxWidth) :
    ∃ text, render value = some text ∧ fromStr text =
      .ok ⟨applySign (.clamp value.coefficient.unsignedAbs) (signOf value), value.scale⟩ := by
  let magnitude := value.coefficient.unsignedAbs
  let digits := Decimal.written (magnitudeDigits magnitude) magnitude
  have hdigits : ∀ byte ∈ digits, Decimal.isDigit byte = true := Decimal.isDigit_written _ _
  have hnumber : Decimal.number digits = magnitude :=
    Decimal.number_written (lt_pow_magnitudeDigits magnitude)
  have hlength : digits.length = magnitudeDigits magnitude := Decimal.length_written _ _
  have hscale : UInt32.ofNat (min value.scale.toNat u32Max) = value.scale := ofNat_scale value.scale
  rw [← hscale]
  by_cases hpoint : value.scale.toNat = 0
  · refine ⟨_, if_pos hpoint, ?_⟩
    obtain ⟨hwhole, hfraction⟩ := parts_of_whole hdigits
    have hpart : digitPart digits = digits := by
      rw [digitPart, hwhole, hfraction, List.append_nil]
    have hplaces : (fractionPart digits).length = value.scale.toNat := by
      rw [hfraction, hpoint]
      rfl
    have hpos : 0 < (wholePart digits).length := by
      rw [hwhole, hlength]
      exact magnitudeDigits_pos magnitude
    exact fromStr_signed value hpos (hpart.symm ▸ hdigits) (hpart.symm ▸ hnumber) hplaces
  · let padded := List.replicate (value.scale.toNat + 1 - digits.length) 0x30 ++ digits
    let split := padded.length - value.scale.toNat
    have hrender : render value = some ((if value.isNegative then [0x2d] else []) ++
        (padded.take split ++ 0x2e :: padded.drop split)) := by
      unfold render
      dsimp only
      rw [if_neg hpoint, if_neg (Nat.not_lt.mpr hwidth), ← List.append_assoc]
    have hpadded : ∀ byte ∈ padded, Decimal.isDigit byte = true := by
      intro byte hbyte
      rcases List.mem_append.mp hbyte with hzero | hdigit
      · rw [List.eq_of_mem_replicate hzero]
        rfl
      · exact hdigits byte hdigit
    have hlong : value.scale.toNat + 1 ≤ padded.length := by
      rw [List.length_append, List.length_replicate]
      omega
    obtain ⟨hwhole, hfraction⟩ := parts_of_point (padded.drop split)
      fun byte hbyte => hpadded byte (List.mem_of_mem_take hbyte)
    have hpart : digitPart (padded.take split ++ 0x2e :: padded.drop split) = padded := by
      rw [digitPart, hwhole, hfraction, List.take_append_drop]
    have hplaces : (fractionPart (padded.take split ++ 0x2e :: padded.drop split)).length =
        value.scale.toNat := by
      rw [hfraction, List.length_drop]
      omega
    have hmagnitude : Decimal.number padded = magnitude := by
      rw [number_replicate_append, hnumber]
    have hpos : 0 < (wholePart (padded.take split ++ 0x2e :: padded.drop split)).length := by
      rw [hwhole, List.length_take]
      omega
    exact ⟨_, hrender,
      fromStr_signed value hpos (hpart.symm ▸ hpadded) (hpart.symm ▸ hmagnitude) hplaces⟩

theorem readsBack_iff (value : Decimal) :
    ReadsBack value ↔ value.coefficient.val ≠ i128Min ∧ value.scale.toNat < maxWidth := by
  by_cases hwidth : value.scale.toNat < maxWidth
  · obtain ⟨text, hrender, hread⟩ := render_eq hwidth
    have hback : ReadsBack value ↔
        applySign (.clamp value.coefficient.unsignedAbs) (signOf value) = value.coefficient := by
      unfold ReadsBack
      rw [hrender]
      constructor
      · rintro ⟨_, hsome, hvalue⟩
        cases hsome
        exact congrArg Decimal.coefficient (Except.ok.inj (hread.symm.trans hvalue))
      · intro hsame
        refine ⟨text, rfl, hread.trans ?_⟩
        rw [hsame]
    rw [hback, applySign_signOf_iff]
    exact (and_iff_left hwidth).symm
  · have hrender : render value = none := by
      have hscale : value.scale.toNat ≠ 0 := by
        unfold maxWidth at hwidth
        omega
      unfold render
      dsimp only
      rw [if_neg hscale, if_pos (Nat.lt_succ_of_le (Nat.le_of_not_lt hwidth))]
    constructor
    · rintro ⟨text, hsome, -⟩
      rw [hrender] at hsome
      cases hsome
    · rintro ⟨-, h⟩
      exact absurd h hwidth

/-- A field or a text is exact where its magnitude does not saturate, and a value reads back where it
is not the least of its type and its places can be padded. -/
theorem decimals_exact_iff (bytes : Bytes) (digits : Nat) (scale : UInt32) (signed : Bool)
    (limits : Limits) (text : Bytes) (value : Decimal) :
    (PackedExact bytes digits scale signed limits ↔ PackedFits bytes digits signed limits) ∧
      (ZonedExact bytes digits signed limits ↔ ZonedFits bytes digits signed limits) ∧
      (TextExact text ↔ TextFits text) ∧
      (ReadsBack value ↔ value.coefficient.val ≠ i128Min ∧ value.scale.toNat < maxWidth) :=
  ⟨packedExact_iff bytes digits scale signed limits, zonedExact_iff bytes digits signed limits,
    textExact_iff text, readsBack_iff value⟩

/-- Thirty-nine nines decode, though no coefficient holds them, and the least one reads back as
another. -/
theorem nines_saturate :
    ¬PackedExact (List.replicate 19 0x99 ++ [0x9c]) 39 0 true ⟨64⟩ ∧
      ¬ReadsBack ⟨.clamp i128Min, 0⟩ := by
  constructor
  · intro hexact
    have hfield : PackedField (List.replicate 19 0x99 ++ [0x9c]) 39 true (List.replicate 39 9) 0x0c
        .positive := ⟨by decide, rfl, by decide, .inl ⟨.inl rfl, rfl⟩⟩
    have hfits := (packedExact_iff _ _ _ _ _).mp hexact (by decide)
    exact absurd (hfits.2 _ _ _ hfield) (by decide)
  · intro hback
    exact ((readsBack_iff _).mp hback).1 rfl

end LogicalWorks.Legacy
