import LogicalWorks.Lib.Bytes
import Mathlib.Data.List.Basic
import Mathlib.Data.List.Induction

/-! Parts of a list at their places, for readers that index what they read. -/
namespace LogicalWorks

variable {α : Type}

def PartAt (whole : List α) (place : Nat) (part : List α) : Prop :=
  whole.drop place = part ++ whole.drop (place + part.length)

theorem partAt_nil (whole : List α) (place : Nat) : PartAt whole place [] := rfl

theorem partAt_of_drop {whole part rest : List α} {place : Nat}
    (h : whole.drop place = part ++ rest) : PartAt whole place part := by
  have hrest := congrArg (List.drop part.length) h
  rw [List.drop_drop, List.drop_left] at hrest
  rw [PartAt, h, hrest]

theorem partAt_append {whole part next : List α} {place : Nat} :
    PartAt whole place (part ++ next) ↔
      PartAt whole place part ∧ PartAt whole (place + part.length) next := by
  constructor
  · intro h
    have hpart := partAt_of_drop (h.trans (List.append_assoc part next _))
    refine ⟨hpart, ?_⟩
    unfold PartAt at h hpart
    rw [List.append_assoc, hpart] at h
    exact partAt_of_drop (List.append_cancel_left h)
  · rintro ⟨hpart, hnext⟩
    unfold PartAt at *
    rw [hpart, hnext, List.append_assoc, List.length_append, Nat.add_assoc]

theorem partAt_singleton {whole : List α} {place : Nat} {item : α} :
    PartAt whole place [item] ↔ whole[place]? = some item := by
  constructor
  · intro h
    have hhead := congrArg List.head? h
    rw [List.head?_drop] at hhead
    exact hhead
  · intro h
    obtain ⟨hplace, rfl⟩ := List.getElem?_eq_some_iff.mp h
    exact List.drop_eq_getElem_cons hplace

theorem partAt_cons {whole part : List α} {place : Nat} {item : α} :
    PartAt whole place (item :: part) ↔
      whole[place]? = some item ∧ PartAt whole (place + 1) part := by
  rw [← partAt_singleton]
  exact @partAt_append α whole [item] part place

theorem eq_iff_partAt {whole part : List α} :
    whole = part ↔ PartAt whole 0 part ∧ whole.length = part.length := by
  constructor
  · rintro rfl
    exact ⟨partAt_of_drop (List.append_nil whole).symm, rfl⟩
  · rintro ⟨h, hlength⟩
    unfold PartAt at h
    rwa [Nat.zero_add, ← hlength, List.drop_length, List.append_nil, List.drop_zero] at h

end LogicalWorks

/-! Numbers in a fixed number of decimal digits. -/
namespace LogicalWorks.Decimal

def isDigit (byte : UInt8) : Bool := decide (0x30 ≤ byte) && decide (byte ≤ 0x39)

def digit (value : Nat) : UInt8 := UInt8.ofNat (48 + value)

def digitValue (byte : UInt8) : Nat := byte.toNat - 48

theorem isDigit_digit {value : Nat} (h : value < 10) : isDigit (digit value) = true := by
  have hall : ∀ value : Fin 10, isDigit (digit value) = true := by decide
  exact hall ⟨value, h⟩

theorem digitValue_digit {value : Nat} (h : value < 10) : digitValue (digit value) = value := by
  have hall : ∀ value : Fin 10, digitValue (digit value) = value := by decide
  exact hall ⟨value, h⟩

theorem digit_digitValue {byte : UInt8} (h : isDigit byte = true) :
    digitValue byte < 10 ∧ digit (digitValue byte) = byte := by
  have hall : ∀ byte : Fin 256, isDigit (UInt8.ofFin byte) = true →
      digitValue (UInt8.ofFin byte) < 10 ∧
        digit (digitValue (UInt8.ofFin byte)) = UInt8.ofFin byte := by
    decide +kernel
  exact hall byte.toFin h

def written : Nat → Nat → Bytes
  | 0, _ => []
  | width + 1, number => written width (number / 10) ++ [digit (number % 10)]

def number (digits : Bytes) : Nat :=
  digits.foldl (fun value byte => value * 10 + digitValue byte) 0

@[simp] theorem length_written (width value : Nat) : (written width value).length = width := by
  induction width generalizing value with
  | zero => rfl
  | succ width ih => rw [written, List.length_append, ih, List.length_singleton]

@[simp] theorem number_nil : number [] = 0 := rfl

@[simp] theorem number_append_singleton (digits : Bytes) (byte : UInt8) :
    number (digits ++ [byte]) = number digits * 10 + digitValue byte := by
  rw [number, List.foldl_append]
  rfl

theorem isDigit_written (width value : Nat) : ∀ byte ∈ written width value, isDigit byte = true := by
  induction width generalizing value with
  | zero => exact fun byte h => (List.not_mem_nil h).elim
  | succ width ih =>
    intro byte h
    rcases List.mem_append.mp h with h | h
    · exact ih _ byte h
    · rw [List.mem_singleton.mp h]
      exact isDigit_digit (Nat.mod_lt value (by decide))

theorem number_written {width value : Nat} (h : value < 10 ^ width) :
    number (written width value) = value := by
  induction width generalizing value with
  | zero =>
    rw [Nat.pow_zero, Nat.lt_one_iff] at h
    rw [h]
    rfl
  | succ width ih =>
    have hquotient : value / 10 < 10 ^ width := by
      rw [Nat.pow_succ] at h
      exact Nat.div_lt_of_lt_mul (by omega)
    rw [written, number_append_singleton, ih hquotient,
      digitValue_digit (Nat.mod_lt value (by decide))]
    omega

theorem written_number {digits : Bytes} (h : ∀ byte ∈ digits, isDigit byte = true) :
    number digits < 10 ^ digits.length ∧ written digits.length (number digits) = digits := by
  induction digits using List.reverseRecOn with
  | nil => exact ⟨Nat.one_pos, rfl⟩
  | append_singleton digits byte ih =>
    obtain ⟨hbound, hsame⟩ := ih fun other hother => h other (List.mem_append_left _ hother)
    obtain ⟨hvalue, hbyte⟩ :=
      digit_digitValue (h byte (List.mem_append_right _ (List.mem_singleton_self byte)))
    rw [number_append_singleton, List.length_append, List.length_singleton]
    refine ⟨?_, ?_⟩
    · rw [Nat.pow_succ]
      omega
    · have hquotient : (number digits * 10 + digitValue byte) / 10 = number digits := by omega
      have hrest : (number digits * 10 + digitValue byte) % 10 = digitValue byte := by omega
      rw [written, hquotient, hrest, hsame, hbyte]

end LogicalWorks.Decimal
