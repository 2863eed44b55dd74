import LogicalWorks.Lib.Bytes

/-! A file behind one handle: its bytes, and the position the next read or write starts
at.  Reads and writes advance the position; setting the length leaves it where it was. -/
namespace LogicalWorks

structure PositionedFile where
  bytes : Bytes
  position : Nat
  deriving DecidableEq, Repr

namespace PositionedFile

variable (file : PositionedFile)

def len : Nat := file.bytes.length

def unread : Bytes := file.bytes.drop file.position

def seek (offset : Nat) : PositionedFile := { file with position := offset }

def advance (count : Nat) : PositionedFile := { file with position := file.position + count }

/-- Fill a buffer of `count` bytes.  A file that ends first has been read to its end. -/
def readFull (count : Nat) : Option Bytes × PositionedFile :=
  if count ≤ file.unread.length then (some (file.unread.take count), file.advance count)
  else (none, file.advance file.unread.length)

def writeAll (data : Bytes) : PositionedFile :=
  if data = [] then file
  else
    { bytes := file.bytes.take file.position ++
        List.replicate (file.position - file.bytes.length) 0 ++ data ++
        file.bytes.drop (file.position + data.length)
      position := file.position + data.length }

def setLen (len : Nat) : PositionedFile :=
  { file with
    bytes := file.bytes.take len ++ List.replicate (len - file.bytes.length) 0 }

variable {file}

@[simp] theorem bytes_seek (offset : Nat) : (file.seek offset).bytes = file.bytes := rfl

@[simp] theorem position_seek (offset : Nat) : (file.seek offset).position = offset := rfl

@[simp] theorem bytes_advance (count : Nat) : (file.advance count).bytes = file.bytes := rfl

@[simp] theorem position_advance (count : Nat) :
    (file.advance count).position = file.position + count := rfl

@[simp] theorem position_setLen (len : Nat) : (file.setLen len).position = file.position := rfl

@[simp] theorem advance_zero : file.advance 0 = file := rfl

theorem advance_advance (first second : Nat) :
    (file.advance first).advance second = file.advance (first + second) := by
  simp [advance, Nat.add_assoc]

theorem length_unread : file.unread.length = file.bytes.length - file.position :=
  List.length_drop

theorem unread_advance (count : Nat) : (file.advance count).unread = file.unread.drop count := by
  simp [unread, List.drop_drop]

theorem unread_of_split {left right : Bytes} (hbytes : file.bytes = left ++ right)
    (hposition : file.position = left.length) : file.unread = right := by
  rw [unread, hbytes, hposition, List.drop_left]

theorem unread_advance_append {piece rest : Bytes} (h : file.unread = piece ++ rest) :
    (file.advance piece.length).unread = rest := by
  rw [unread_advance, h, List.drop_left]

theorem readFull_append {piece rest : Bytes} (h : file.unread = piece ++ rest) :
    file.readFull piece.length = (some piece, file.advance piece.length) := by
  unfold readFull
  rw [h, if_pos (by simp), List.take_left]

theorem readFull_short {count : Nat} (h : file.unread.length < count) :
    file.readFull count = (none, file.advance file.unread.length) := by
  unfold readFull
  rw [if_neg (by omega)]

theorem readFull_eq_some {count : Nat} {buffer : Bytes} {next : PositionedFile}
    (h : file.readFull count = (some buffer, next)) :
    buffer.length = count ∧ next = file.advance count ∧ file.unread = buffer ++ next.unread := by
  unfold readFull at h
  split at h
  · rename_i hroom
    cases h
    refine ⟨by simp [hroom], rfl, ?_⟩
    rw [unread_advance, List.take_append_drop]
  · cases h

theorem readFull_keeps (count : Nat) :
    (file.readFull count).2.bytes = file.bytes ∧
      file.position ≤ (file.readFull count).2.position := by
  unfold readFull
  split
  · exact ⟨rfl, Nat.le_add_right _ _⟩
  · exact ⟨rfl, Nat.le_add_right _ _⟩

theorem writeAll_at_end {data : Bytes} (h : file.position = file.bytes.length) :
    file.writeAll data = ⟨file.bytes ++ data, file.bytes.length + data.length⟩ := by
  unfold writeAll
  split
  · rename_i hdata
    cases file
    simp_all
  · simp [h]

theorem writeAll_behind_end {data : Bytes} (hdata : data ≠ [])
    (h : file.bytes.length ≤ file.position) :
    file.writeAll data =
      ⟨file.bytes ++ List.replicate (file.position - file.bytes.length) 0 ++ data,
        file.position + data.length⟩ := by
  unfold writeAll
  rw [if_neg hdata, List.take_of_length_le h, List.drop_eq_nil_of_le (by omega)]
  simp

theorem writeAll_grows (data : Bytes) (h : file.bytes.length ≤ file.position) :
    file.bytes <+: (file.writeAll data).bytes ∧
      (file.writeAll data).bytes.length ≤ (file.writeAll data).position := by
  by_cases hdata : data = []
  · unfold writeAll
    rw [if_pos hdata]
    exact ⟨List.prefix_refl _, h⟩
  · rw [writeAll_behind_end hdata h]
    refine ⟨?_, ?_⟩
    · rw [List.append_assoc]
      exact List.prefix_append _ _
    · simp only [List.length_append, List.length_replicate]
      omega

theorem setLen_append {left right : Bytes} (h : file.bytes = left ++ right) :
    (file.setLen left.length).bytes = left := by
  simp [setLen, h]

theorem length_writeAll_inside {data : Bytes}
    (h : file.position + data.length ≤ file.bytes.length) :
    (file.writeAll data).bytes.length = file.bytes.length := by
  unfold writeAll
  split
  · rfl
  · simp only [List.length_append, List.length_take, List.length_replicate, List.length_drop]
    omega

end PositionedFile

end LogicalWorks
