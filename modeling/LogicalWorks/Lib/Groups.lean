import Mathlib.Data.Int.Order.Basic
import Mathlib.Data.List.Basic
import Mathlib.Tactic.Linarith

/-! Integers written as bytes of seven bits each, the least significant first, where the top bit of
a byte says that another follows. A `carry` tells how the groups go on above the last one. -/
namespace LogicalWorks

namespace Groups

variable {carry : Nat → Int}

def lastValue (carry : Nat → Int) (group : Nat) : Int := group + 128 * carry group

/-- No group is written that the groups below it already say. -/
inductive Spelt (carry : Nat → Int) : Int → List UInt8 → Prop
  | last {byte : UInt8} (hlast : byte.toNat < 128) :
      Spelt carry (lastValue carry byte.toNat) [byte]
  | more {byte : UInt8} {value : Int} {rest : List UInt8} (hmore : 128 ≤ byte.toNat)
      (hneeded : value ≠ carry (byte.toNat - 128)) (hrest : Spelt carry value rest) :
      Spelt carry ((byte.toNat - 128 : Nat) + 128 * value) (byte :: rest)

theorem Spelt.bytes_unique {value value' : Int} {bytes bytes' : List UInt8}
    (h : Spelt carry value bytes) (h' : Spelt carry value' bytes') (hvalue : value = value') :
    bytes = bytes' := by
  induction h generalizing value' bytes' with
  | @last byte hlast =>
    cases h' with
    | @last byte' hlast' =>
      have hsame : byte.toNat = byte'.toNat := by
        unfold lastValue at hvalue
        omega
      rw [UInt8.toNat_inj.mp hsame]
    | @more byte' above rest hmore hneeded hrest =>
      have hbyte : byte'.toNat < 256 := byte'.toNat_lt
      have hsame : byte'.toNat - 128 = byte.toNat := by
        unfold lastValue at hvalue
        omega
      rw [hsame] at hvalue hneeded
      exact absurd (by unfold lastValue at hvalue; omega) hneeded
  | @more byte above rest hmore hneeded hrest ih =>
    have hbyte : byte.toNat < 256 := byte.toNat_lt
    cases h' with
    | @last byte' hlast' =>
      have hsame : byte.toNat - 128 = byte'.toNat := by
        unfold lastValue at hvalue
        omega
      rw [hsame] at hvalue hneeded
      exact absurd (by unfold lastValue at hvalue; omega) hneeded
    | @more byte' above' rest' hmore' hneeded' hrest' =>
      have hbyte' : byte'.toNat < 256 := byte'.toNat_lt
      have hsame : byte.toNat = byte'.toNat := by omega
      rw [UInt8.toNat_inj.mp hsame, ih hrest' (by omega)]

theorem Spelt.prefix_free {value value' : Int} {bytes bytes' tail tail' : List UInt8}
    (h : Spelt carry value bytes) (h' : Spelt carry value' bytes')
    (happend : bytes ++ tail = bytes' ++ tail') : bytes = bytes' := by
  induction h generalizing value' bytes' with
  | @last byte hlast =>
    cases h' with
    | last _ => simp_all
    | more hmore _ _ =>
      simp only [List.cons_append, List.nil_append, List.cons.injEq] at happend
      rw [← happend.1] at hmore
      omega
  | @more byte above rest hmore hneeded hrest ih =>
    cases h' with
    | last hlast =>
      simp only [List.cons_append, List.nil_append, List.cons.injEq] at happend
      rw [← happend.1] at hlast
      omega
    | more _ _ hrest' =>
      simp only [List.cons_append, List.cons.injEq] at happend
      rw [happend.1, ih hrest' happend.2]

def Settled (carry : Nat → Int) : Prop :=
  ∀ (below group : Nat) (value : Int), group < 128 →
    (group : Int) + 128 * value = carry below → value = carry group

theorem Spelt.more_ne_carry (hsettled : Settled carry) {byte : UInt8} {value : Int}
    (hneeded : value ≠ carry (byte.toNat - 128)) (below : Nat) :
    ((byte.toNat - 128 : Nat) : Int) + 128 * value ≠ carry below := by
  have hbyte : byte.toNat < 256 := byte.toNat_lt
  intro h
  exact hneeded (hsettled below _ value (by omega) h)

def unsigned (_ : Nat) : Int := 0

/-- Groups of a number in two's complement: the top bit of the last group is the sign. -/
def signed (group : Nat) : Int := if 64 ≤ group then -1 else 0

theorem settled_unsigned : Settled unsigned := by
  intro below group value hgroup h
  unfold unsigned at *
  omega

theorem settled_signed : Settled signed := by
  intro below group value hgroup h
  unfold signed at *
  split at h <;> split <;> omega

theorem Spelt.nonneg {value : Int} {bytes : List UInt8} (h : Spelt unsigned value bytes) :
    0 ≤ value := by
  induction h with
  | last hlast =>
    unfold lastValue unsigned
    omega
  | more hmore hneeded hrest ih => omega

end Groups

end LogicalWorks
