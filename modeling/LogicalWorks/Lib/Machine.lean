import Mathlib.Data.Int.Order.Basic

/-! Arithmetic of a fixed range: what an operation gives whose result is outside the range. -/
namespace LogicalWorks

structure Arithmetic (m : Type → Type) where
  /-- The result of an operation on a type of the values from `low` to `high`. -/
  within (low high value : Int) : m Int
  /-- The low bits of a value, as an unsigned number below `size`. -/
  narrow (size value : Int) : m Int

namespace Arithmetic

variable {m : Type → Type}

/-- Operations stop at the bound they cross and narrowing drops bits. -/
def saturating : Arithmetic Id where
  within low high value := (max low (min high value) : Int)
  narrow size value := (value % size : Int)

/-- No operation has a result outside the range and narrowing drops no bit. -/
def checked : Arithmetic Option where
  within low high value := if low ≤ value ∧ value ≤ high then some value else none
  narrow size value := if 0 ≤ value ∧ value < size then some value else none

/-- Where nothing is lost the result is the number itself. -/
structure Faithful [Monad m] (arith : Arithmetic m) : Prop where
  within (low high value : Int) : low ≤ value ∧ value ≤ high →
    arith.within low high value = pure value
  narrow (size value : Int) : 0 ≤ value ∧ value < size → arith.narrow size value = pure value

theorem faithful_saturating : saturating.Faithful where
  within low high value h := by
    show (max low (min high value) : Int) = value
    rw [min_eq_right h.2, max_eq_right h.1]
  narrow size value h := Int.emod_eq_of_lt h.1 h.2

theorem faithful_checked : checked.Faithful where
  within low high value h := if_pos h
  narrow size value h := if_pos h

end Arithmetic

def i64Min : Int := -9223372036854775808

def i64Max : Int := 9223372036854775807

def i128Min : Int := -170141183460469231731687303715884105728

def i128Max : Int := 170141183460469231731687303715884105727

def u32Max : Int := 4294967295

def InI64 (value : Int) : Prop := i64Min ≤ value ∧ value ≤ i64Max

instance decidableInI64 (value : Int) : Decidable (InI64 value) :=
  inferInstanceAs (Decidable (i64Min ≤ value ∧ value ≤ i64Max))

end LogicalWorks
