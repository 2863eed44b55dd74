import LogicalWorks.Lib.Bytes

/-! Codecs that read their own encoding off the front of any bytes.  The one law makes
codecs compose: what a codec wrote is read back and the rest is left as it was. -/
namespace LogicalWorks

structure StreamCodec (α : Type) where
  encode : α → Bytes
  decode : Bytes → Option (α × Bytes)
  decode_encode : ∀ value rest, decode (encode value ++ rest) = some (value, rest)

namespace StreamCodec

variable {α β : Type}

def decodeAll (codec : StreamCodec α) (bytes : Bytes) : Option α :=
  match codec.decode bytes with
  | some (value, []) => some value
  | _ => none

@[simp] theorem decodeAll_encode (codec : StreamCodec α) (value : α) :
    codec.decodeAll (codec.encode value) = some value := by
  have h := codec.decode_encode value []
  rw [List.append_nil] at h
  unfold decodeAll
  rw [h]

private def decodeUnary : Bytes → Option (Nat × Bytes)
  | [] => none
  | byte :: rest =>
    if byte = 0 then some (0, rest)
    else (decodeUnary rest).map fun read => (read.1 + 1, read.2)

def nat : StreamCodec Nat where
  encode value := List.replicate value 1 ++ [0]
  decode := decodeUnary
  decode_encode := by
    intro value rest
    induction value with
    | zero => rfl
    | succ value ih =>
      rw [List.replicate_succ, List.cons_append, List.cons_append, decodeUnary,
        if_neg (by decide), ih]
      rfl

private def encodeNumber (value : Nat) : Bytes :=
  nat.encode (value.log2 / 8 + 1) ++ Bytes.littleEndian (value.log2 / 8 + 1) value

private def decodeNumber (bytes : Bytes) : Option (Nat × Bytes) :=
  match nat.decode bytes with
  | none => none
  | some (count, rest) =>
    if count ≤ rest.length then
      some (Bytes.ofLittleEndian (rest.take count), rest.drop count)
    else none

private theorem decodeNumber_encodeNumber (value : Nat) (rest : Bytes) :
    decodeNumber (encodeNumber value ++ rest) = some (value, rest) := by
  have hpower : (256 : Nat) ^ (value.log2 / 8 + 1) = 2 ^ (8 * (value.log2 / 8 + 1)) := by
    rw [Nat.pow_mul]
  have hbound : value < 256 ^ (value.log2 / 8 + 1) := by
    rw [hpower]
    refine Nat.lt_of_lt_of_le Nat.lt_log2_self ?_
    exact Nat.pow_le_pow_right (by decide) (by omega)
  have hlength := Bytes.length_littleEndian (value.log2 / 8 + 1) value
  unfold decodeNumber encodeNumber
  rw [List.append_assoc, nat.decode_encode]
  simp only []
  rw [if_pos (by rw [List.length_append, hlength]; omega), List.take_left' hlength,
    List.drop_left' hlength, Bytes.ofLittleEndian_littleEndian hbound]

def number : StreamCodec Nat where
  encode := encodeNumber
  decode := decodeNumber
  decode_encode := decodeNumber_encodeNumber

def bytes : StreamCodec Bytes where
  encode value := number.encode value.length ++ value
  decode source := do
    let (count, rest) ← number.decode source
    if count ≤ rest.length then some (rest.take count, rest.drop count) else none
  decode_encode := by
    intro value rest
    rw [List.append_assoc, number.decode_encode]
    simp

def pair (first : StreamCodec α) (second : StreamCodec β) : StreamCodec (α × β) where
  encode value := first.encode value.1 ++ second.encode value.2
  decode bytes := do
    let (left, rest) ← first.decode bytes
    let (right, rest) ← second.decode rest
    some ((left, right), rest)
  decode_encode := by
    intro value rest
    rw [List.append_assoc, first.decode_encode]
    simp [second.decode_encode]

def map (codec : StreamCodec α) (build : α → β) (parts : β → α)
    (build_parts : ∀ value, build (parts value) = value) : StreamCodec β where
  encode value := codec.encode (parts value)
  decode bytes := (codec.decode bytes).map fun read => (build read.1, read.2)
  decode_encode := by
    intro value rest
    rw [codec.decode_encode, Option.map_some, build_parts]

private def decodeMany (codec : StreamCodec α) : Nat → Bytes → Option (List α × Bytes)
  | 0, bytes => some ([], bytes)
  | count + 1, bytes => do
      let (value, rest) ← codec.decode bytes
      let (values, rest) ← decodeMany codec count rest
      some (value :: values, rest)

private theorem decodeMany_flatMap (codec : StreamCodec α) (values : List α) (rest : Bytes) :
    decodeMany codec values.length (values.flatMap codec.encode ++ rest) =
      some (values, rest) := by
  induction values with
  | nil => rfl
  | cons value values ih =>
    rw [List.flatMap_cons, List.length_cons, decodeMany, List.append_assoc,
      codec.decode_encode]
    simp [ih]

def list (codec : StreamCodec α) : StreamCodec (List α) where
  encode values := nat.encode values.length ++ values.flatMap codec.encode
  decode bytes := do
    let (count, rest) ← nat.decode bytes
    decodeMany codec count rest
  decode_encode := by
    intro values rest
    rw [List.append_assoc, nat.decode_encode]
    exact decodeMany_flatMap codec values rest

def option (codec : StreamCodec α) : StreamCodec (Option α) :=
  (list codec).map List.head? Option.toList (fun value => by cases value <;> rfl)

def fixed (count : Nat) : StreamCodec { bytes : Bytes // bytes.length = count } where
  encode value := value.val
  decode bytes :=
    if h : count ≤ bytes.length then
      some (⟨bytes.take count, by rw [List.length_take]; omega⟩, bytes.drop count)
    else none
  decode_encode := by
    intro value rest
    have hlength := value.property
    rw [dif_pos (by simp [hlength])]
    simp [← hlength]

def text : StreamCodec String :=
  (list number).map (fun codes => String.ofList (codes.map Char.ofNat))
    (fun value => value.toList.map Char.toNat)
    (fun value => by simp [List.map_map, Function.comp_def, Char.ofNat_toNat])

end StreamCodec

end LogicalWorks
