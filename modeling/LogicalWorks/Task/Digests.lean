import LogicalWorks.Journal.Records

/-! How the task stores spell text and numbers, and the length-framed hashing their records
are chained with. -/
namespace LogicalWorks.Task

open Journal

def utf8 (text : String) : Bytes := text.toUTF8.toList

def u64LE (number : UInt64) : Bytes := Bytes.littleEndian 8 number.toNat

def u128BE (number : Nat) : Bytes := (Bytes.littleEndian 16 number).reverse

def hexDigits : List Char :=
  ['0', '1', '2', '3', '4', '5', '6', '7', '8', '9', 'a', 'b', 'c', 'd', 'e', 'f']

def hexDigit (value : Nat) : Char := hexDigits.getD value '0'

def hexOf (bytes : Bytes) : String :=
  String.ofList (bytes.flatMap fun byte =>
    [hexDigit (byte.toNat / 16), hexDigit (byte.toNat % 16)])

def framed (field : Bytes) : Bytes := Bytes.littleEndian 8 field.length ++ field

def hashFramed (hash : Bytes → Digest) (fields : List Bytes) : Digest :=
  hash (fields.flatMap framed)

theorem hexDigit_inj {left right : Nat} (hleft : left < 16) (hright : right < 16)
    (h : hexDigit left = hexDigit right) : left = right := by
  have hindex : ∀ value : Fin 16, hexDigits.idxOf (hexDigit value) = value := by decide
  have hback := congrArg (hexDigits.idxOf ·) h
  simpa [hindex ⟨left, hleft⟩, hindex ⟨right, hright⟩] using hback

theorem hexOf_inj {left right : Bytes} (h : hexOf left = hexOf right) : left = right := by
  have hchars := String.ofList_inj.mp h
  clear h
  induction left generalizing right with
  | nil =>
    cases right with
    | nil => rfl
    | cons byte rest => simp at hchars
  | cons byte rest ih =>
    cases right with
    | nil => simp at hchars
    | cons other others =>
      simp only [List.flatMap_cons, List.cons_append, List.nil_append,
        List.cons.injEq] at hchars
      obtain ⟨hhigh, hlow, hrest⟩ := hchars
      have hbyte : byte.toNat < 256 := byte.toNat_lt
      have hother : other.toNat < 256 := other.toNat_lt
      have hdiv := hexDigit_inj (by omega) (by omega) hhigh
      have hmod := hexDigit_inj (by omega) (by omega) hlow
      have hsame : byte = other := UInt8.toNat_inj.mp (by omega)
      rw [hsame, ih hrest]

end LogicalWorks.Task
