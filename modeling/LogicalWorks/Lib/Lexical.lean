import LogicalWorks.Lib.Bytes

/-! The lexicographic order of byte strings: what keeps it, and numbers written so that it is their
own order. -/
namespace LogicalWorks

section Order

variable {α β : Type} [LT α] [LT β]

theorem append_lt_append {left right : List α} (h : left < right)
    (hlength : left.length = right.length) (tail tail' : List α) :
    left ++ tail < right ++ tail' := by
  induction left generalizing right with
  | nil =>
    rw [List.length_nil, eq_comm, List.length_eq_zero_iff] at hlength
    rw [hlength] at h
    cases h
  | cons head rest ih =>
    cases right with
    | nil => cases hlength
    | cons head' rest' =>
      rw [List.cons_append, List.cons_append, List.cons_lt_cons_iff]
      rw [List.cons_lt_cons_iff] at h
      rcases h with hhead | ⟨hhead, hrest⟩
      · exact .inl hhead
      · exact .inr ⟨hhead, ih hrest (Nat.succ.inj hlength)⟩

/-- Writing each item by its place, in an order-keeping way and in one length, keeps the order. -/
theorem writtenFrom_lt {write : Nat → α → List β}
    (hwrite : ∀ place item item', item < item' → write place item < write place item')
    (hlength : ∀ place item item', (write place item).length = (write place item').length)
    {left right : List α} (h : left < right) (hsame : left.length = right.length) (place : Nat) :
    (left.mapIdx fun offset item => write (place + offset) item).flatten <
      (right.mapIdx fun offset item => write (place + offset) item).flatten := by
  induction left generalizing right place with
  | nil =>
    rw [List.length_nil, eq_comm, List.length_eq_zero_iff] at hsame
    rw [hsame] at h
    cases h
  | cons head rest ih =>
    cases right with
    | nil => cases hsame
    | cons head' rest' =>
      rw [List.cons_lt_cons_iff] at h
      simp only [List.mapIdx_cons, List.flatten_cons, Nat.add_zero]
      rcases h with hhead | ⟨rfl, hrest⟩
      · exact append_lt_append (hwrite place head head' hhead) (hlength place head head') _ _
      · apply List.append_left_lt
        have hnext := ih hrest (Nat.succ.inj hsame) (place + 1)
        simpa only [Nat.add_assoc, Nat.add_comm 1] using hnext

end Order

def bigEndian : Nat → Nat → Bytes
  | 0, _ => []
  | count + 1, number => UInt8.ofNat (number / 256 ^ count) :: bigEndian count number

@[simp] theorem length_bigEndian (count number : Nat) : (bigEndian count number).length = count := by
  induction count with
  | zero => rfl
  | succ count ih => rw [bigEndian, List.length_cons, ih]

theorem bigEndian_lt {count number number' : Nat}
    (habove : number / 256 ^ count = number' / 256 ^ count) (h : number < number') :
    bigEndian count number < bigEndian count number' := by
  induction count with
  | zero =>
    rw [Nat.pow_zero, Nat.div_one, Nat.div_one] at habove
    omega
  | succ count ih =>
    rw [Nat.pow_succ, ← Nat.div_div_eq_div_mul, ← Nat.div_div_eq_div_mul] at habove
    have hle : number / 256 ^ count ≤ number' / 256 ^ count :=
      Nat.div_le_div_right (Nat.le_of_lt h)
    rw [bigEndian, bigEndian, List.cons_lt_cons_iff]
    rcases Nat.lt_or_eq_of_le hle with hlt | heq
    · left
      rw [UInt8.lt_iff_toNat_lt, UInt8.toNat_ofNat', UInt8.toNat_ofNat']
      omega
    · right
      exact ⟨congrArg UInt8.ofNat heq, ih heq⟩

open Bytes in
theorem ofBE_bigEndian {count number : Nat} (h : number < 256 ^ count) :
    ofBE (bigEndian count number) = number := by
  have hfold (start : Nat) : (bigEndian count number).foldl
      (fun value byte => value * 256 + byte.toNat) start =
        start * 256 ^ count + number % 256 ^ count := by
    clear h
    induction count generalizing start with
    | zero => simp [bigEndian, Nat.mod_one]
    | succ count ih =>
      have hsplit := @Nat.mod_pow_succ number 256 count
      rw [bigEndian, List.foldl_cons, ih, UInt8.toNat_ofNat', hsplit, Nat.pow_succ, Nat.add_mul,
        Nat.mul_assoc, Nat.mul_comm 256 (256 ^ count), Nat.add_assoc,
        Nat.add_comm (number % 256 ^ count), Nat.mul_comm (256 ^ count) (_ % 256)]
      rfl
  rw [ofBE, hfold, Nat.zero_mul, Nat.zero_add, Nat.mod_eq_of_lt h]

end LogicalWorks
