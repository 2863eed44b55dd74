import Mathlib.Data.List.Basic

/-! Numbers below 256 written three at a time as four numbers below 64. -/
namespace LogicalWorks

def sextets : List Nat → List Nat
  | first :: second :: third :: rest =>
    first / 4 :: (first % 4 * 16 + second / 16) :: (second % 16 * 4 + third / 64) :: third % 64 ::
      sextets rest
  | [first, second] => [first / 4, first % 4 * 16 + second / 16, second % 16 * 4]
  | [first] => [first / 4, first % 4 * 16]
  | [] => []

def octets : List Nat → List Nat
  | first :: second :: third :: fourth :: rest =>
    (first * 4 + second / 16) :: (second % 16 * 16 + third / 4) :: (third % 4 * 64 + fourth) ::
      octets rest
  | [first, second, third] => [first * 4 + second / 16, second % 16 * 16 + third / 4]
  | [first, second] => [first * 4 + second / 16]
  | _ => []

def leftover : List Nat → Nat
  | _ :: _ :: _ :: _ :: rest => leftover rest
  | [_, _, third] => third % 4
  | [_, second] => second % 16
  | [first] => first
  | [] => 0

theorem octets_sextets (values : List Nat) (h : ∀ value ∈ values, value < 256) :
    octets (sextets values) = values := by
  fun_induction sextets values with
  | case1 first second third rest ih =>
    simp only [List.forall_mem_cons] at h
    simp only [octets, ih h.2.2.2, List.cons.injEq, and_true]
    omega
  | case2 first second =>
    simp only [List.forall_mem_cons] at h
    simp only [octets, List.cons.injEq, and_true]
    omega
  | case3 first =>
    simp only [List.forall_mem_cons] at h
    simp only [octets, List.cons.injEq, and_true]
    omega
  | case4 => rfl

theorem leftover_sextets (values : List Nat) : leftover (sextets values) = 0 := by
  fun_induction sextets values with
  | case1 first second third rest ih => exact ih
  | case2 first second =>
    simp only [leftover]
    omega
  | case3 first =>
    simp only [leftover]
    omega
  | case4 => rfl

theorem sextets_octets (values : List Nat) (h : ∀ value ∈ values, value < 64)
    (hlength : values.length % 4 ≠ 1) (hleft : leftover values = 0) :
    sextets (octets values) = values := by
  fun_induction octets values with
  | case1 first second third fourth rest ih =>
    simp only [List.forall_mem_cons] at h
    have hrest : rest.length % 4 ≠ 1 := by
      simp only [List.length_cons] at hlength
      omega
    simp only [sextets, ih h.2.2.2.2 hrest hleft, List.cons.injEq, and_true]
    omega
  | case2 first second third =>
    simp only [List.forall_mem_cons] at h
    simp only [leftover] at hleft
    simp only [sextets, List.cons.injEq, and_true]
    omega
  | case3 first second =>
    simp only [List.forall_mem_cons] at h
    simp only [leftover] at hleft
    simp only [sextets, List.cons.injEq, and_true]
    omega
  | case4 values hfour hthree htwo =>
    rcases values with _ | ⟨first, _ | ⟨second, _ | ⟨third, _ | ⟨fourth, rest⟩⟩⟩⟩
    · rfl
    · exact absurd rfl hlength
    · exact absurd rfl (htwo first second)
    · exact absurd rfl (hthree first second third)
    · exact absurd rfl (hfour first second third fourth rest)

theorem sextets_lt (values : List Nat) (h : ∀ value ∈ values, value < 256) :
    ∀ value ∈ sextets values, value < 64 := by
  fun_induction sextets values with
  | case1 first second third rest ih =>
    simp only [List.forall_mem_cons] at h ⊢
    exact ⟨by omega, by omega, by omega, by omega, ih h.2.2.2⟩
  | case2 first second =>
    simp only [List.forall_mem_cons] at h ⊢
    exact ⟨by omega, by omega, by omega, List.forall_mem_nil _⟩
  | case3 first =>
    simp only [List.forall_mem_cons] at h ⊢
    exact ⟨by omega, by omega, List.forall_mem_nil _⟩
  | case4 => exact List.forall_mem_nil _

theorem octets_lt (values : List Nat) (h : ∀ value ∈ values, value < 64) :
    ∀ value ∈ octets values, value < 256 := by
  fun_induction octets values with
  | case1 first second third fourth rest ih =>
    simp only [List.forall_mem_cons] at h ⊢
    exact ⟨by omega, by omega, by omega, ih h.2.2.2.2⟩
  | case2 first second third =>
    simp only [List.forall_mem_cons] at h ⊢
    exact ⟨by omega, by omega, List.forall_mem_nil _⟩
  | case3 first second =>
    simp only [List.forall_mem_cons] at h ⊢
    exact ⟨by omega, List.forall_mem_nil _⟩
  | case4 => exact List.forall_mem_nil _

theorem length_octets (values : List Nat) :
    (octets values).length = values.length * 3 / 4 := by
  fun_induction octets values with
  | case1 first second third fourth rest ih =>
    simp only [List.length_cons, ih]
    omega
  | case2 first second third => simp
  | case3 first second => simp
  | case4 values hfour hthree htwo =>
    rcases values with _ | ⟨first, _ | ⟨second, _ | ⟨third, _ | ⟨fourth, rest⟩⟩⟩⟩
    · rfl
    · simp
    · exact absurd rfl (htwo first second)
    · exact absurd rfl (hthree first second third)
    · exact absurd rfl (hfour first second third fourth rest)

theorem length_sextets (values : List Nat) :
    (sextets values).length + (3 - values.length % 3) % 3 = (values.length + 2) / 3 * 4 := by
  fun_induction sextets values with
  | case1 first second third rest ih =>
    simp only [List.length_cons]
    omega
  | case2 first second => simp
  | case3 first => simp
  | case4 => rfl

end LogicalWorks
