import Mathlib.Data.List.Basic

/-! Text that is cut at byte offsets: its encoding, and the offsets at which a character begins. -/
namespace LogicalWorks.Slices

def encode (text : List Char) : List UInt8 := text.flatMap String.utf8EncodeChar

def size (text : List Char) : Nat := (encode text).length

def cut : List Char → Nat → Option (List Char × List Char)
  | text, 0 => some ([], text)
  | [], _ + 1 => none
  | first :: rest, offset + 1 =>
    if first.utf8Size ≤ offset + 1 then
      (cut rest (offset + 1 - first.utf8Size)).map fun parts => (first :: parts.1, parts.2)
    else none

def slice (text : List Char) (start stop : Nat) : Option (List Char) :=
  if start ≤ stop then do
    let (_, behind) ← cut text start
    let (inside, _) ← cut behind (stop - start)
    pure inside
  else none

def Agree (ofByte : UInt8 → Bool) (ofChar : Char → Bool) : Prop :=
  ∀ first : Char, ∀ byte ∈ String.utf8EncodeChar first, ofByte byte = ofChar first

variable {first : Char} {before inside behind rest text : List Char} {ofByte : UInt8 → Bool}
  {ofChar : Char → Bool}

@[simp] theorem encode_nil : encode [] = [] := rfl

@[simp] theorem encode_cons (first : Char) (rest : List Char) :
    encode (first :: rest) = String.utf8EncodeChar first ++ encode rest := rfl

@[simp] theorem encode_append (text rest : List Char) :
    encode (text ++ rest) = encode text ++ encode rest := by
  simp [encode]

@[simp] theorem size_nil : size [] = 0 := rfl

@[simp] theorem size_cons (first : Char) (rest : List Char) :
    size (first :: rest) = first.utf8Size + size rest := by
  simp [size]

@[simp] theorem size_append (text rest : List Char) :
    size (text ++ rest) = size text + size rest := by
  simp [size]

theorem length_encode (text : List Char) : (encode text).length = size text := rfl

theorem cut_append (before behind : List Char) :
    cut (before ++ behind) (size before) = some (before, behind) := by
  induction before with
  | nil => simp [cut]
  | cons first before ih =>
    have hpos := Char.utf8Size_pos first
    obtain ⟨offset, hoffset⟩ : ∃ offset, size (first :: before) = offset + 1 :=
      Nat.exists_eq_succ_of_ne_zero (by rw [size_cons]; omega)
    have hle : first.utf8Size ≤ offset + 1 := by
      rw [← hoffset, size_cons]
      omega
    have hleft : offset + 1 - first.utf8Size = size before := by
      rw [← hoffset, size_cons]
      omega
    rw [hoffset, List.cons_append, cut, if_pos hle, hleft, ih]
    rfl

/-- A slice between two places where characters begin is the text between them. -/
theorem slice_append (before inside behind : List Char) :
    slice (before ++ (inside ++ behind)) (size before) (size before + size inside) =
      some inside := by
  have hinside := cut_append inside behind
  simp only [slice, Nat.le_add_right, if_true, cut_append, Nat.add_sub_cancel_left,
    Option.bind_eq_bind, Option.bind_some, hinside]
  rfl

theorem slice_eq {start stop : Nat} (htext : text = before ++ (inside ++ behind))
    (hstart : start = size before) (hstop : stop = size before + size inside) :
    slice text start stop = some inside := by
  rw [htext, hstart, hstop, slice_append]

theorem getElem?_encode (before behind : List Char) (offset : Nat) :
    (encode (before ++ behind))[size before + offset]? = (encode behind)[offset]? := by
  rw [encode_append, ← length_encode, List.getElem?_append_right (Nat.le_add_right _ _),
    Nat.add_sub_cancel_left]

theorem drop_encode (before behind : List Char) :
    (encode (before ++ behind)).drop (size before) = encode behind := by
  rw [encode_append, ← length_encode, List.drop_left]

theorem bytes_cases (first : Char) :
    (first.toNat < 128 ∧ ∀ byte ∈ String.utf8EncodeChar first, byte.toNat = first.toNat) ∨
      (128 ≤ first.toNat ∧ ∀ byte ∈ String.utf8EncodeChar first, 128 ≤ byte.toNat) := by
  have hcode : first.val.toNat = first.toNat := rfl
  unfold String.utf8EncodeChar
  dsimp only
  rw [hcode]
  by_cases hlow : first.toNat ≤ 127
  · left
    rw [if_pos hlow]
    refine ⟨by omega, fun byte hmem => ?_⟩
    rw [List.mem_singleton.mp hmem, UInt8.toNat_ofNat']
    omega
  · right
    refine ⟨by omega, fun byte hmem => ?_⟩
    rw [if_neg hlow] at hmem
    split at hmem
    · simp only [List.mem_cons, List.not_mem_nil, or_false] at hmem
      rcases hmem with rfl | rfl <;> rw [UInt8.toNat_ofNat'] <;> omega
    · split at hmem
      · simp only [List.mem_cons, List.not_mem_nil, or_false] at hmem
        rcases hmem with rfl | rfl | rfl <;> rw [UInt8.toNat_ofNat'] <;> omega
      · simp only [List.mem_cons, List.not_mem_nil, or_false] at hmem
        rcases hmem with rfl | rfl | rfl | rfl <;> rw [UInt8.toNat_ofNat'] <;> omega

theorem agree_of_code (test : Nat → Bool) (high : Bool)
    (hhigh : ∀ code, 128 ≤ code → test code = high) :
    Agree (fun byte => test byte.toNat) (fun first => test first.toNat) := by
  intro first byte hmem
  dsimp only
  rcases bytes_cases first with ⟨-, hbytes⟩ | ⟨hcode, hbytes⟩
  · rw [hbytes byte hmem]
  · rw [hhigh _ (hbytes byte hmem), hhigh _ hcode]

theorem takeWhile_encode (h : Agree ofByte ofChar) (text : List Char) :
    (encode text).takeWhile ofByte = encode (text.takeWhile ofChar) := by
  induction text with
  | nil => rfl
  | cons first rest ih =>
    rw [encode_cons]
    by_cases hfirst : ofChar first = true
    · rw [List.takeWhile_cons_of_pos hfirst, encode_cons, ← ih,
        List.takeWhile_append_of_pos fun byte hmem => (h first byte hmem).trans hfirst]
    · rw [List.takeWhile_cons_of_neg hfirst]
      obtain ⟨byte, bytes, hbytes⟩ := List.exists_cons_of_ne_nil
        (String.utf8EncodeChar_ne_nil (c := first))
      have hbyte : ¬ofByte byte = true := by
        rw [h first byte (by simp [hbytes])]
        exact hfirst
      rw [hbytes, List.cons_append, List.takeWhile_cons_of_neg hbyte]
      rfl

theorem findIdx?_encode (h : Agree ofByte ofChar) (text : List Char) :
    (encode text).findIdx? ofByte =
      if text.any ofChar then some (size (text.takeWhile fun first => !ofChar first)) else none := by
  induction text with
  | nil => rfl
  | cons first rest ih =>
    rw [encode_cons, List.any_cons]
    by_cases hfirst : ofChar first = true
    · obtain ⟨byte, bytes, hbytes⟩ := List.exists_cons_of_ne_nil
        (String.utf8EncodeChar_ne_nil (c := first))
      have hbyte : ofByte byte = true := (h first byte (by simp [hbytes])).trans hfirst
      simp [hbytes, hbyte, hfirst, List.findIdx?_cons]
    · have hnone : (String.utf8EncodeChar first).findIdx? ofByte = none := by
        rw [List.findIdx?_eq_none_iff]
        intro byte hmem
        rw [h first byte hmem]
        simpa using hfirst
      rw [List.findIdx?_append, hnone, ih]
      simp only [Bool.not_eq_true] at hfirst
      by_cases hany : rest.any ofChar = true
      · simp [hfirst, hany, Nat.add_comm]
      · simp [hfirst, hany]

end LogicalWorks.Slices
