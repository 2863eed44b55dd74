import Mathlib.Data.List.TakeDrop
import Mathlib.Data.List.TakeWhile
import Mathlib.Tactic.Linarith

/-! Byte strings, and reads that fill a buffer.  A read of `n` bytes from a source
that ends early leaves the unread part of its buffer zero, which is `List.takeD`. -/
namespace LogicalWorks

abbrev Bytes := List UInt8

namespace Bytes

instance lawfulBEq : LawfulBEq Bytes := inferInstanceAs (LawfulBEq (List UInt8))

theorem shiftRight_ofNat (byte : UInt8) {amount : UInt8} (h : amount.toNat < 8) :
    byte >>> amount = UInt8.ofNat (byte.toNat / 2 ^ amount.toNat) := by
  have hlt := byte.toNat_lt
  apply UInt8.toNat_inj.mp
  rw [UInt8.toNat_shiftRight, Nat.mod_eq_of_lt h, Nat.shiftRight_eq_div_pow, UInt8.toNat_ofNat',
    Nat.mod_eq_of_lt (Nat.lt_of_le_of_lt (Nat.div_le_self _ _) hlt)]

theorem and_ofNat (byte : UInt8) {mask : UInt8} {bits : Nat} (hmask : mask.toNat = 2 ^ bits - 1) :
    byte &&& mask = UInt8.ofNat (byte.toNat % 2 ^ bits) := by
  have hlt := byte.toNat_lt
  apply UInt8.toNat_inj.mp
  rw [UInt8.toNat_and, hmask, Nat.and_two_pow_sub_one_eq_mod, UInt8.toNat_ofNat',
    Nat.mod_eq_of_lt (Nat.lt_of_le_of_lt (Nat.mod_le _ _) hlt)]

theorem and_shiftLeft_ofNat (byte : UInt8) {mask amount : UInt8} {bits : Nat}
    (hmask : mask.toNat = 2 ^ bits - 1) (h : amount.toNat < 8) :
    (byte &&& mask) <<< amount =
      UInt8.ofNat (byte.toNat % 2 ^ bits * 2 ^ amount.toNat) := by
  apply UInt8.toNat_inj.mp
  rw [UInt8.toNat_shiftLeft, UInt8.toNat_and, hmask, Nat.and_two_pow_sub_one_eq_mod,
    Nat.mod_eq_of_lt h, Nat.shiftLeft_eq, UInt8.toNat_ofNat']

/-- A buffer of `count` zeroed bytes into which as much of `source` as fits was read. -/
def fill (count : Nat) (source : Bytes) : Bytes :=
  source.takeD count 0

@[simp] theorem length_fill (count : Nat) (source : Bytes) :
    (fill count source).length = count :=
  List.takeD_length count source 0

theorem fill_of_le {count : Nat} {source : Bytes} (h : count ≤ source.length) :
    fill count source = source.take count :=
  List.takeD_eq_take 0 h

@[simp] theorem fill_append {left : Bytes} (right : Bytes) :
    fill left.length (left ++ right) = left := by
  rw [fill_of_le (by simp), List.take_left]

@[simp] theorem fill_length_self (source : Bytes) : fill source.length source = source := by
  have h : fill source.length (source ++ []) = source := fill_append []
  rwa [List.append_nil] at h

theorem fill_of_length_le {count : Nat} {source : Bytes} (h : source.length ≤ count) :
    fill count source = source ++ List.replicate (count - source.length) 0 := by
  unfold fill
  induction source generalizing count with
  | nil => simp [List.takeD_nil]
  | cons byte rest ih =>
    cases count with
    | zero => simp at h
    | succ count =>
      simp only [List.length_cons, Nat.add_le_add_iff_right] at h
      simp [List.takeD_succ, ih h]

def slice (bytes : Bytes) (start stop : Nat) : Option Bytes :=
  if start ≤ stop ∧ stop ≤ bytes.length then some ((bytes.drop start).take (stop - start))
  else none

theorem slice_append_middle (left middle right : Bytes) :
    slice (left ++ middle ++ right) left.length (left.length + middle.length) = some middle := by
  unfold slice
  rw [if_pos (by simp)]
  simp [List.append_assoc]

theorem slice_eq_some {bytes piece : Bytes} {start stop : Nat}
    (h : slice bytes start stop = some piece) :
    ∃ left right, bytes = left ++ piece ++ right ∧ left.length = start ∧
      start + piece.length = stop := by
  unfold slice at h
  split at h
  · rename_i hbounds
    cases h
    refine ⟨bytes.take start, bytes.drop stop, ?_, ?_, ?_⟩
    · have hdrop : bytes.drop stop = (bytes.drop start).drop (stop - start) := by
        rw [List.drop_drop, Nat.add_sub_cancel' hbounds.1]
      rw [hdrop, List.append_assoc, List.take_append_drop, List.take_append_drop]
    · rw [List.length_take]
      omega
    · rw [List.length_take, List.length_drop]
      omega
  · cases h

def u32BE (value : UInt32) : Bytes :=
  [(value >>> 24).toUInt8, (value >>> 16).toUInt8, (value >>> 8).toUInt8, value.toUInt8]

def ofBE (bytes : Bytes) : Nat :=
  bytes.foldl (fun number byte => number * 256 + byte.toNat) 0

@[simp] theorem length_u32BE (value : UInt32) : (u32BE value).length = 4 := rfl

@[simp] theorem ofBE_u32BE (value : UInt32) : ofBE (u32BE value) = value.toNat := by
  have hbound : value.toNat < 2 ^ 32 := value.toNat_lt
  simp only [ofBE, u32BE, List.foldl_cons, List.foldl_nil, UInt32.toNat_toUInt8,
    UInt32.toNat_shiftRight, UInt32.reduceToNat, Nat.reduceMod, Nat.shiftRight_eq_div_pow]
  omega

theorem u32BE_ofBE {bytes : Bytes} (h : bytes.length = 4) :
    u32BE (UInt32.ofNat (ofBE bytes)) = bytes := by
  match bytes, h with
  | [first, second, third, fourth], _ =>
    have hfirst : first.toNat < 256 := first.toNat_lt
    have hsecond : second.toNat < 256 := second.toNat_lt
    have hthird : third.toNat < 256 := third.toNat_lt
    have hfourth : fourth.toNat < 256 := fourth.toNat_lt
    simp only [ofBE, u32BE, List.foldl_cons, List.foldl_nil, List.cons.injEq, and_true]
    refine ⟨?_, ?_, ?_, ?_⟩
    all_goals
      apply UInt8.toNat_inj.mp
      simp only [UInt32.toNat_toUInt8, UInt32.toNat_shiftRight, UInt32.reduceToNat,
        Nat.reduceMod, Nat.shiftRight_eq_div_pow, UInt32.toNat_ofNat']
      omega

theorem ofBE_lt {bytes : Bytes} : ofBE bytes < 256 ^ bytes.length := by
  have hstep : ∀ (rest : Bytes) (number bound : Nat), number < bound →
      rest.foldl (fun number byte => number * 256 + byte.toNat) number <
        bound * 256 ^ rest.length := by
    intro rest
    induction rest with
    | nil => intro number bound h; simpa using h
    | cons byte rest ih =>
      intro number bound h
      have hbyte : byte.toNat < 256 := byte.toNat_lt
      have hnext := ih (number * 256 + byte.toNat) (bound * 256) (by omega)
      simpa [pow_succ, mul_assoc, mul_comm, mul_left_comm] using hnext
  simpa [ofBE] using hstep bytes 0 1 (by omega)

def littleEndian (count number : Nat) : Bytes :=
  (List.range count).map fun place => UInt8.ofNat (number / 256 ^ place)

def ofLittleEndian (bytes : Bytes) : Nat :=
  bytes.foldr (fun byte number => byte.toNat + 256 * number) 0

@[simp] theorem length_littleEndian (count number : Nat) :
    (littleEndian count number).length = count := by
  simp [littleEndian]

theorem ofLittleEndian_littleEndian {count number : Nat} (h : number < 256 ^ count) :
    ofLittleEndian (littleEndian count number) = number := by
  induction count generalizing number with
  | zero =>
    rw [pow_zero, Nat.lt_one_iff] at h
    rw [h]
    rfl
  | succ count ih =>
    have hrest : (List.range count).map (fun place => UInt8.ofNat (number / 256 ^ (place + 1))) =
        littleEndian count (number / 256) := by
      unfold littleEndian
      refine List.map_congr_left ?_
      intro place _
      rw [Nat.div_div_eq_div_mul, pow_succ, Nat.mul_comm]
    have hless : number / 256 < 256 ^ count := by
      rw [Nat.div_lt_iff_lt_mul (by decide), ← pow_succ]
      exact h
    unfold littleEndian
    rw [List.range_succ_eq_map, List.map_cons, List.map_map]
    change ofLittleEndian (_ :: (List.range count).map
      fun place => UInt8.ofNat (number / 256 ^ (place + 1))) = number
    rw [hrest]
    unfold ofLittleEndian at ih ⊢
    rw [List.foldr_cons, ih hless, pow_zero, Nat.div_one, UInt8.toNat_ofNat']
    exact Nat.mod_add_div number (2 ^ 8)

end Bytes

end LogicalWorks

/-! Bytes read as UTF-8 text that are not all text: each longest piece of a character that is
cut off or misplaced reads as one replacement character. -/
namespace LogicalWorks.Utf8

/-- How many bytes the character takes that such a byte begins. -/
def width (first : UInt8) : Nat :=
  if first < 0x80 then 1
  else if 0xC2 ≤ first ∧ first ≤ 0xDF then 2
  else if 0xE0 ≤ first ∧ first ≤ 0xEF then 3
  else if 0xF0 ≤ first ∧ first ≤ 0xF4 then 4
  else 0

def continues (byte : UInt8) : Bool := byte &&& 0xC0 = 0x80

def seconds (first byte : UInt8) : Bool :=
  if first = 0xE0 then 0xA0 ≤ byte && byte ≤ 0xBF
  else if first = 0xED then 0x80 ≤ byte && byte ≤ 0x9F
  else if first = 0xF0 then 0x90 ≤ byte && byte ≤ 0xBF
  else if first = 0xF4 then 0x80 ≤ byte && byte ≤ 0x8F
  else 0x80 ≤ byte && byte ≤ 0xBF

def piece (first : UInt8) (rest : Bytes) : Nat × Bool :=
  match width first with
  | 1 => (1, true)
  | 2 => if continues (rest.getD 0 0) then (2, true) else (1, false)
  | 3 =>
    if !seconds first (rest.getD 0 0) then (1, false)
    else if !continues (rest.getD 1 0) then (2, false)
    else (3, true)
  | 4 =>
    if !seconds first (rest.getD 0 0) then (1, false)
    else if !continues (rest.getD 1 0) then (2, false)
    else if !continues (rest.getD 2 0) then (3, false)
    else (4, true)
  | _ => (1, false)

def replacement : Bytes := [0xEF, 0xBF, 0xBD]

def lossyFrom : Nat → Bytes → Bytes
  | _, [] => []
  | skip + 1, _ :: rest => lossyFrom skip rest
  | 0, first :: rest =>
    (if (piece first rest).2 then (first :: rest).take (piece first rest).1 else replacement) ++
      lossyFrom ((piece first rest).1 - 1) rest

def lossy (bytes : Bytes) : Bytes := lossyFrom 0 bytes

example : lossy [0x61, 0xE2, 0x82, 0x62, 0xC3, 0xA9, 0xFF] =
    [0x61, 0xEF, 0xBF, 0xBD, 0x62, 0xC3, 0xA9, 0xEF, 0xBF, 0xBD] := by decide

end LogicalWorks.Utf8
