import LogicalWorks.Lib.Edits
import Mathlib.Data.List.Induction

/-! Edit distances of two sequences, by one word a column or by two rows that take turns, and the
scores made of them. -/
namespace LogicalWorks.Similarity

def wordBits : Nat := 64

structure Scoring (Score : Type) where
  one : Score
  zero : Score
  normalized (distance length : Nat) : Score

section Myers

def asciiSlot (character : Char) : Option Nat :=
  let code := character.toNat
  if code < 128 then some code else none

structure Masks where
  ascii : List (BitVec 64)
  others : List (Char × BitVec 64)

def markOther (character : Char) (bit : BitVec 64) :
    List (Char × BitVec 64) → List (Char × BitVec 64)
  | [] => [(character, bit)]
  | (known, mask) :: rest =>
    if known = character then (known, mask ||| bit) :: rest
    else (known, mask) :: markOther character bit rest

def mark (masks : Masks) (index : Nat) (character : Char) : Masks :=
  let bit : BitVec 64 := 1#64 <<< index
  match asciiSlot character with
  | some slot => { masks with ascii := masks.ascii.modify slot (· ||| bit) }
  | none => { masks with others := markOther character bit masks.others }

def markFrom : List Char → Nat → Masks → Masks
  | [], _, masks => masks
  | character :: rest, index, masks => markFrom rest (index + 1) (mark masks index character)

def emptyMasks : Masks := ⟨List.replicate 128 0#64, []⟩

def equalityMask (character : Char) (masks : Masks) : BitVec 64 :=
  match asciiSlot character with
  | some slot => masks.ascii.getD slot 0#64
  | none =>
    masks.others.foldl
      (fun found entry => if entry.1 = character then found ||| entry.2 else found) 0#64

structure Column where
  positive : BitVec 64
  negative : BitVec 64
  distance : Nat

def myersStep (masks : Masks) (topBit : BitVec 64) (column : Column) (character : Char) :
    Column :=
  let equality := equalityMask character masks
  let vertical := equality ||| column.negative
  let horizontal :=
    (((equality &&& column.positive) + column.positive) ^^^ column.positive) ||| equality
  let positiveHorizontal := column.negative ||| ~~~(horizontal ||| column.positive)
  let negativeHorizontal := column.positive &&& horizontal
  let raised :=
    if positiveHorizontal &&& topBit ≠ 0#64 then column.distance + 1 else column.distance
  let distance := if negativeHorizontal &&& topBit ≠ 0#64 then raised - 1 else raised
  let positiveShifted := (positiveHorizontal <<< 1) ||| 1#64
  let negativeShifted := negativeHorizontal <<< 1
  { positive := negativeShifted ||| ~~~(vertical ||| positiveShifted)
    negative := positiveShifted &&& vertical
    distance := distance }

def myersDistance (pattern text : List Char) : Nat :=
  let topBit : BitVec 64 := 1#64 <<< (pattern.length - 1)
  let masks := markFrom pattern 0 emptyMasks
  (text.foldl (myersStep masks topBit) ⟨~~~0#64, 0#64, pattern.length⟩).distance

end Myers

section Rows

variable {α : Type} [DecidableEq α]

def fillColumns (rowValue : α) (source : List Nat) : List α → Nat → List Nat → List Nat
  | [], _, target => target
  | columnValue :: rest, columnIndex, target =>
    let cost := if rowValue ≠ columnValue then 1 else 0
    let index := columnIndex + 1
    let deletion := source.getD index 0 + 1
    let insertion := target.getD columnIndex 0 + 1
    let substitution := source.getD columnIndex 0 + cost
    fillColumns rowValue source rest index
      (target.set index (min (min deletion insertion) substitution))

def fillRows (columns : List α) : List α → Nat → List Nat → List Nat → List Nat
  | [], _, source, _ => source
  | rowValue :: rest, rowIndex, source, target =>
    fillRows columns rest (rowIndex + 1)
      (fillColumns rowValue source columns 0 (target.set 0 (rowIndex + 1))) source

def distanceRows (rows columns : List α) (rowBuffer : List Nat) : Nat :=
  let width := columns.length + 1
  let first := rowBuffer.take width
  let second := rowBuffer.drop width
  let source := first.mapIdx fun index _ => index
  (fillRows columns rows 0 source second).getD columns.length 0

def sequenceDistance (left right : List α) : Nat :=
  let (rows, columns) := if left.length < right.length then (left, right) else (right, left)
  let width := columns.length + 1
  if columns.length < wordBits then
    distanceRows rows columns ((List.replicate (2 * (wordBits + 1)) 0).take (width * 2))
  else distanceRows rows columns (List.replicate (width * 2) 0)

def sequenceSimilarity {Score : Type} (scoring : Scoring Score) (left right : List α) : Score :=
  if left.isEmpty && right.isEmpty then scoring.one
  else if left.isEmpty || right.isEmpty then scoring.zero
  else
    let columns := if left.length < right.length then right else left
    scoring.normalized (sequenceDistance left right) columns.length

end Rows

def usizeDistance (rows columns : List Char) : Nat :=
  let width := columns.length + 1
  distanceRows rows columns (List.replicate (width * 2) 0)

def charDistance (left right : List Char) : Nat :=
  let (shorter, longer) := if left.length ≤ right.length then (left, right) else (right, left)
  if shorter.length ≤ wordBits then myersDistance shorter longer
  else usizeDistance longer shorter

def charSequenceSimilarity {Score : Type} (scoring : Scoring Score) (left right : List Char) :
    Score :=
  if left.isEmpty && right.isEmpty then scoring.one
  else if left.isEmpty || right.isEmpty then scoring.zero
  else
    let longer := if left.length ≤ right.length then right else left
    scoring.normalized (charDistance left right) longer.length

example : myersDistance ['k', 'i', 't', 't', 'e', 'n'] ['s', 'i', 't', 't', 'i', 'n', 'g'] = 3 := by
  decide

end LogicalWorks.Similarity

/-! Both distances are the edit distance, so that the two entry points score alike. -/
namespace LogicalWorks.Similarity

section Masks

def holds (pattern : List Char) (character : Char) (place : Nat) : Bool :=
  decide (pattern[place]? = some character)

theorem asciiSlot_inj {left right : Char} {slot : Nat} (hleft : asciiSlot left = some slot)
    (hright : asciiSlot right = some slot) : left = right := by
  unfold asciiSlot at hleft hright
  dsimp only at hleft hright
  split at hleft
  · split at hright
    · cases hleft
      exact (Char.toNat_inj.mp (Option.some.inj hright)).symm
    · cases hright
  · cases hleft

theorem asciiSlot_lt {character : Char} {slot : Nat} (h : asciiSlot character = some slot) :
    slot < 128 := by
  unfold asciiSlot at h
  dsimp only at h
  split at h
  · cases h
    assumption
  · cases h

theorem getLsbD_bit {index place : Nat} (hindex : index < 64) :
    (1#64 <<< index).getLsbD place = decide (place = index) := by
  rw [BitVec.getLsbD_shiftLeft, BitVec.getLsbD_one]
  by_cases h : place = index
  · simp [h, hindex]
  · simp only [h, decide_false]
    simp
    omega

theorem getLsbD_others (character : Char) (entries : List (Char × BitVec 64)) (found : BitVec 64)
    (place : Nat) :
    (entries.foldl (fun found entry => if entry.1 = character then found ||| entry.2 else found)
      found).getLsbD place =
      (found.getLsbD place ||
        entries.any fun entry => decide (entry.1 = character) && entry.2.getLsbD place) := by
  induction entries generalizing found with
  | nil => rw [List.foldl_nil, List.any_nil, Bool.or_false]
  | cons entry rest ih =>
    rw [List.foldl_cons, ih, List.any_cons]
    by_cases h : entry.1 = character
    · rw [if_pos h, BitVec.getLsbD_or, decide_eq_true h, Bool.true_and, Bool.or_assoc]
    · rw [if_neg h, decide_eq_false h, Bool.false_and, Bool.false_or]

theorem any_markOther (character known : Char) (bit : BitVec 64) (place : Nat)
    (entries : List (Char × BitVec 64)) :
    ((markOther known bit entries).any fun entry =>
        decide (entry.1 = character) && entry.2.getLsbD place) =
      ((entries.any fun entry => decide (entry.1 = character) && entry.2.getLsbD place) ||
        (decide (known = character) && bit.getLsbD place)) := by
  induction entries with
  | nil => simp [markOther]
  | cons entry rest ih =>
    obtain ⟨other, mask⟩ := entry
    rw [markOther]
    by_cases h : other = known
    · rw [if_pos h, List.any_cons, List.any_cons, BitVec.getLsbD_or, h, Bool.and_or_distrib_left]
      simp only [Bool.or_assoc, Bool.or_comm]
    · rw [if_neg h, List.any_cons, List.any_cons, ih, Bool.or_assoc]

theorem getLsbD_mark {masks : Masks} (hsize : masks.ascii.length = 128) {index : Nat}
    (hindex : index < 64) (known character : Char) (place : Nat) :
    (equalityMask character (mark masks index known)).getLsbD place =
      ((equalityMask character masks).getLsbD place ||
        (decide (known = character) && decide (place = index))) := by
  rw [← getLsbD_bit hindex]
  unfold equalityMask mark
  cases hknown : asciiSlot known with
  | some slot =>
    cases hcharacter : asciiSlot character with
    | some slot' =>
      have hlt := asciiSlot_lt hcharacter
      dsimp only
      rw [List.getD_eq_getElem?_getD, List.getD_eq_getElem?_getD, List.getElem?_modify,
        List.getElem?_eq_getElem (hsize ▸ hlt), Option.map_eq_map, Option.map_some,
        Option.getD_some, Option.getD_some]
      by_cases hsame : slot = slot'
      · have hequal : known = character := asciiSlot_inj hknown (hsame ▸ hcharacter)
        rw [if_pos hsame, decide_eq_true hequal, Bool.true_and]
        exact BitVec.getLsbD_or
      · have hne : ¬ known = character := by
          rintro rfl
          exact hsame (Option.some.inj (hknown.symm.trans hcharacter))
        rw [if_neg hsame, decide_eq_false hne, Bool.false_and, Bool.or_false]
    | none =>
      have hne : ¬ known = character := by
        rintro rfl
        exact absurd (hknown.symm.trans hcharacter) (Option.some_ne_none slot)
      rw [decide_eq_false hne, Bool.false_and, Bool.or_false]
  | none =>
    cases hcharacter : asciiSlot character with
    | some slot' =>
      have hne : ¬ known = character := by
        rintro rfl
        exact absurd (hcharacter.symm.trans hknown) (Option.some_ne_none slot')
      rw [decide_eq_false hne, Bool.false_and, Bool.or_false]
    | none =>
      dsimp only
      rw [getLsbD_others, getLsbD_others, any_markOther, Bool.or_assoc]

theorem length_mark (masks : Masks) (index : Nat) (character : Char) :
    (mark masks index character).ascii.length = masks.ascii.length := by
  unfold mark
  cases asciiSlot character with
  | some slot => exact List.length_modify _ _ _
  | none => rfl

theorem getLsbD_markFrom {pattern : List Char} {index : Nat} {masks : Masks}
    (hsize : masks.ascii.length = 128) (hwidth : index + pattern.length ≤ 64) (character : Char)
    (place : Nat) :
    (equalityMask character (markFrom pattern index masks)).getLsbD place =
      ((equalityMask character masks).getLsbD place ||
        (decide (index ≤ place) && holds pattern character (place - index))) := by
  induction pattern generalizing index masks with
  | nil =>
    have hnone : holds [] character (place - index) = false := decide_eq_false (by simp)
    rw [hnone, Bool.and_false, Bool.or_false]
    rfl
  | cons known rest ih =>
    rw [List.length_cons] at hwidth
    rw [markFrom, ih ((length_mark _ _ _).trans hsize) (by omega),
      getLsbD_mark hsize (by omega), Bool.or_assoc]
    congr 1
    unfold holds
    rcases Nat.lt_trichotomy place index with hlt | rfl | hgt
    · have hne : ¬ place = index := by omega
      have hle : ¬ index ≤ place := by omega
      have hle' : ¬ index + 1 ≤ place := by omega
      simp [hne, hle, hle']
    · have hle : ¬ place + 1 ≤ place := by omega
      simp [hle]
    · have hne : ¬ place = index := by omega
      have hle : index ≤ place := by omega
      have hle' : index + 1 ≤ place := by omega
      have hsplit : place - index = place - (index + 1) + 1 := by omega
      simp [hne, hle, hle', hsplit]

theorem getLsbD_equalityMask {pattern : List Char} (hwidth : pattern.length ≤ 64)
    (character : Char) (place : Nat) :
    (equalityMask character (markFrom pattern 0 emptyMasks)).getLsbD place =
      holds pattern character place := by
  have hempty : equalityMask character emptyMasks = 0#64 := by
    unfold equalityMask emptyMasks
    cases h : asciiSlot character with
    | some slot =>
      show (List.replicate 128 0#64).getD slot 0#64 = 0#64
      rw [List.getD_eq_getElem?_getD, List.getElem?_replicate, if_pos (asciiSlot_lt h)]
      rfl
    | none => rfl
  rw [getLsbD_markFrom List.length_replicate (by omega), hempty, BitVec.getLsbD_zero,
    Bool.false_or, decide_eq_true (Nat.zero_le place), Bool.true_and, Nat.sub_zero]

end Masks

section Table

def columnOf (pattern text : List Char) : Nat → Nat :=
  text.foldl (fun column character => nextColumn (holds pattern character) column) fun row => row

theorem columnOf_concat (pattern text : List Char) (character : Char) :
    columnOf pattern (text ++ [character]) =
      nextColumn (holds pattern character) (columnOf pattern text) := by
  unfold columnOf
  rw [List.foldl_append]
  rfl

theorem columnOf_eq (pattern text : List Char) {row : Nat} (hrow : row ≤ pattern.length) :
    columnOf pattern text row = editDistance (pattern.take row) text := by
  induction text using List.reverseRecOn generalizing row with
  | nil =>
    rw [editDistance_nil_right, List.length_take, Nat.min_eq_left hrow]
    rfl
  | append_singleton text character ih =>
    rw [columnOf_concat]
    induction row with
    | zero =>
      have hzero := ih (Nat.zero_le pattern.length)
      rw [List.take_zero, editDistance_nil_left] at hzero
      rw [nextColumn, hzero, List.take_zero, editDistance_nil_left, List.length_append]
      rfl
    | succ row ihRow =>
      have hitem : pattern[row]? = some pattern[row] := List.getElem?_eq_getElem hrow
      have htake : pattern.take (row + 1) = pattern.take row ++ [pattern[row]] :=
        List.take_succ_eq_append_getElem hrow
      have hcost : (if holds pattern character row = true then 0 else 1) =
          mismatch pattern[row] character := by
        simp only [holds, mismatch, hitem, Option.some_inj, decide_eq_true_eq]
      rw [nextColumn, ihRow (Nat.le_of_lt hrow), ih (Nat.le_of_lt hrow), ih hrow, htake,
        editDistance_concat, cell, hcost,
        Nat.min_comm (editDistance (pattern.take row ++ [pattern[row]]) text + 1)]

end Table

section Words

/-- The words hold the column behind the text read so far, and the distance is its last row. -/
structure Tells (pattern text : List Char) (column : Column) : Prop where
  bits : ColumnBits column.positive column.negative (columnOf pattern text)
  distance : column.distance = columnOf pattern text pattern.length

theorem and_bit_ne_zero {index : Nat} (hindex : index < 64) (word : BitVec 64) :
    word &&& (1#64 <<< index) ≠ 0#64 ↔ word.getLsbD index = true := by
  constructor
  · intro h
    by_contra hbit
    apply h
    apply BitVec.eq_of_getLsbD_eq
    intro place hplace
    rw [BitVec.getLsbD_and, getLsbD_bit hindex, BitVec.getLsbD_zero]
    by_cases hsame : place = index
    · rw [hsame, (Bool.not_eq_true _).mp hbit, Bool.false_and]
    · rw [decide_eq_false hsame, Bool.and_false]
  · intro h hzero
    have hbit := congrArg (BitVec.getLsbD · index) hzero
    simp only [BitVec.getLsbD_and, getLsbD_bit hindex, h, decide_true, BitVec.getLsbD_zero,
      Bool.and_true] at hbit
    cases hbit

section Step

variable {equality positive negative : BitVec 64} {equal : Nat → Bool} {column : Nat → Nat}

def horizontalUp (equality positive negative : BitVec 64) : BitVec 64 :=
  negative ||| ~~~(((((equality &&& positive) + positive) ^^^ positive) ||| equality) ||| positive)

def horizontalDown (equality positive : BitVec 64) : BitVec 64 :=
  positive &&& ((((equality &&& positive) + positive) ^^^ positive) ||| equality)

theorem getLsbD_shifted_down {row : Nat} (hrow : row < 64) :
    (horizontalDown equality positive <<< 1).getLsbD row =
      BitVec.carry row (equality &&& positive) positive false := by
  cases row with
  | zero => simp
  | succ row =>
    rw [carry_run, BitVec.getLsbD_shiftLeft, horizontalDown, Nat.add_sub_cancel,
      BitVec.getLsbD_and, getLsbD_run equality positive (Nat.lt_of_succ_lt hrow),
      decide_eq_true hrow]
    simp

theorem getLsbD_shifted_up {row : Nat} (hrow : row + 1 < 64) :
    ((horizontalUp equality positive negative <<< 1) ||| 1#64).getLsbD (row + 1) =
      (horizontalUp equality positive negative).getLsbD row := by
  rw [BitVec.getLsbD_or, BitVec.getLsbD_shiftLeft, BitVec.getLsbD_one, decide_eq_true hrow]
  simp

theorem horizontal_steps (hbits : ColumnBits positive negative column)
    (hequal : ∀ row < 64, equality.getLsbD row = equal row) {row : Nat} (hrow : row < 64) :
    Steps (((horizontalUp equality positive negative <<< 1) ||| 1#64).getLsbD row)
        ((horizontalDown equality positive <<< 1).getLsbD row) (column row)
        (nextColumn equal column row) ∧
      Steps ((horizontalUp equality positive negative).getLsbD row)
        ((horizontalDown equality positive).getLsbD row) (column (row + 1))
        (nextColumn equal column (row + 1)) := by
  have hcell {row : Nat} (hrow : row < 64)
      (hin : Steps (((horizontalUp equality positive negative <<< 1) ||| 1#64).getLsbD row)
        ((horizontalDown equality positive <<< 1).getLsbD row) (column row)
        (nextColumn equal column row)) :
      Steps ((horizontalUp equality positive negative).getLsbD row)
        ((horizontalDown equality positive).getLsbD row) (column (row + 1))
        (nextColumn equal column (row + 1)) := by
    have hout := @Steps.cell (equal row) _ _ _ _ _ _ _ (hbits row hrow) hin
    rw [getLsbD_shifted_down hrow] at hout
    have hup : (horizontalUp equality positive negative).getLsbD row =
        (negative.getLsbD row || !((equal row ||
          BitVec.carry row (equality &&& positive) positive false) || positive.getLsbD row)) := by
      rw [horizontalUp, BitVec.getLsbD_or, BitVec.getLsbD_not, BitVec.getLsbD_or,
        getLsbD_run equality positive hrow, hequal row hrow, decide_eq_true hrow, Bool.true_and]
    have hdown : (horizontalDown equality positive).getLsbD row =
        (positive.getLsbD row && (equal row ||
          BitVec.carry row (equality &&& positive) positive false)) := by
      rw [horizontalDown, BitVec.getLsbD_and, getLsbD_run equality positive hrow, hequal row hrow]
    rw [hup, hdown]
    exact hout
  induction row with
  | zero =>
    have hin : Steps (((horizontalUp equality positive negative <<< 1) ||| 1#64).getLsbD 0)
        ((horizontalDown equality positive <<< 1).getLsbD 0) (column 0)
        (nextColumn equal column 0) := by
      have hup : ((horizontalUp equality positive negative <<< 1) ||| 1#64).getLsbD 0 = true := by
        simp
      have hdown : (horizontalDown equality positive <<< 1).getLsbD 0 = false := by simp
      rw [hup, hdown, nextColumn]
      refine ⟨Nat.le_refl _, by omega, by simp, ?_⟩
      simp only [Bool.false_eq_true, false_iff]
      omega
    exact ⟨hin, hcell hrow hin⟩
  | succ row ih =>
    have hin := (ih (Nat.lt_of_succ_lt hrow)).2
    have hdown : (horizontalDown equality positive <<< 1).getLsbD (row + 1) =
        (horizontalDown equality positive).getLsbD row := by
      rw [BitVec.getLsbD_shiftLeft, decide_eq_true hrow]
      simp
    rw [← getLsbD_shifted_up hrow, ← hdown] at hin
    exact ⟨hin, hcell hrow hin⟩

theorem columnBits_next (hbits : ColumnBits positive negative column)
    (hequal : ∀ row < 64, equality.getLsbD row = equal row) :
    ColumnBits
      ((horizontalDown equality positive <<< 1) |||
        ~~~((equality ||| negative) ||| ((horizontalUp equality positive negative <<< 1) ||| 1#64)))
      (((horizontalUp equality positive negative <<< 1) ||| 1#64) &&& (equality ||| negative))
      (nextColumn equal column) := by
  intro row hrow
  have hin := (horizontal_steps hbits hequal hrow).1
  have hout := @Steps.cell (equal row) _ _ _ _ _ _ _ hin (hbits row hrow)
  rw [cell_comm] at hout
  rw [BitVec.getLsbD_or, BitVec.getLsbD_not, BitVec.getLsbD_and, decide_eq_true hrow,
    Bool.true_and, BitVec.getLsbD_or (x := equality ||| negative),
    BitVec.getLsbD_or (x := equality), hequal row hrow]
  exact hout

end Step

theorem Tells.step {pattern text : List Char} {column : Column} (hne : pattern ≠ [])
    (hwidth : pattern.length ≤ 64) (h : Tells pattern text column) (character : Char) :
    Tells pattern (text ++ [character])
      (myersStep (markFrom pattern 0 emptyMasks) (1#64 <<< (pattern.length - 1)) column
        character) := by
  have hpos := List.length_pos_iff.mpr hne
  have hequal : ∀ row < 64,
      (equalityMask character (markFrom pattern 0 emptyMasks)).getLsbD row =
        holds pattern character row :=
    fun row _ => getLsbD_equalityMask hwidth character row
  have hlast : pattern.length - 1 < 64 := by omega
  obtain ⟨hle, hge, hup, hdown⟩ := (horizontal_steps h.bits hequal hlast).2
  rw [Nat.sub_add_cancel hpos, ← and_bit_ne_zero hlast] at hup hdown
  rw [Nat.sub_add_cancel hpos] at hle hge
  refine ⟨?_, ?_⟩
  · rw [columnOf_concat]
    exact columnBits_next h.bits hequal
  · rw [columnOf_concat]
    show (if horizontalDown (equalityMask character (markFrom pattern 0 emptyMasks))
          column.positive &&& (1#64 <<< (pattern.length - 1)) ≠ 0#64 then
        (if horizontalUp (equalityMask character (markFrom pattern 0 emptyMasks)) column.positive
            column.negative &&& (1#64 <<< (pattern.length - 1)) ≠ 0#64 then column.distance + 1
          else column.distance) - 1
      else
        if horizontalUp (equalityMask character (markFrom pattern 0 emptyMasks)) column.positive
            column.negative &&& (1#64 <<< (pattern.length - 1)) ≠ 0#64 then column.distance + 1
        else column.distance) = _
    simp only [hup, hdown, h.distance]
    split <;> split <;> omega

theorem tells_start (pattern : List Char) :
    Tells pattern [] ⟨~~~0#64, 0#64, pattern.length⟩ := by
  refine ⟨fun row hrow => ?_, rfl⟩
  have hpositive : (~~~0#64).getLsbD row = true := by
    rw [BitVec.getLsbD_not, BitVec.getLsbD_zero, decide_eq_true hrow]
    rfl
  rw [hpositive, BitVec.getLsbD_zero]
  show Steps true false row (row + 1)
  refine ⟨Nat.le_refl _, by omega, by simp, ?_⟩
  simp only [Bool.false_eq_true, false_iff]
  omega

theorem tells_run {pattern : List Char} (hne : pattern ≠ []) (hwidth : pattern.length ≤ 64)
    (text : List Char) :
    Tells pattern text
      (text.foldl (myersStep (markFrom pattern 0 emptyMasks) (1#64 <<< (pattern.length - 1)))
        ⟨~~~0#64, 0#64, pattern.length⟩) := by
  induction text using List.reverseRecOn with
  | nil => exact tells_start pattern
  | append_singleton text character ih =>
    rw [List.foldl_append]
    exact ih.step hne hwidth character

theorem myersDistance_eq {pattern : List Char} (hne : pattern ≠ [])
    (hwidth : pattern.length ≤ 64) (text : List Char) :
    myersDistance pattern text = editDistance pattern text := by
  have hrun := (tells_run hne hwidth text).distance
  rw [columnOf_eq pattern text (Nat.le_refl _), List.take_length] at hrun
  exact hrun

end Words

section Rows

variable {α : Type} [DecidableEq α] {columns : List α}

/-- The buffer holds the distances of the rows read so far to the starts of the columns. -/
def RowOf (rows columns : List α) (source : List Nat) : Prop :=
  source.length = columns.length + 1 ∧
    ∀ column ≤ columns.length, source.getD column 0 = editDistance rows (columns.take column)

theorem getD_set_of_ne {items : List Nat} {place other value : Nat} (h : other ≠ place) :
    (items.set other value).getD place 0 = items.getD place 0 := by
  rw [List.getD_eq_getElem?_getD, List.getElem?_set_ne h, ← List.getD_eq_getElem?_getD]

theorem getD_set_self {items : List Nat} {place value : Nat} (h : place < items.length) :
    (items.set place value).getD place 0 = value := by
  rw [List.getD_eq_getElem?_getD, List.getElem?_set_self h]
  rfl

theorem fillColumns_spec {rows : List α} {source : List Nat} (hsource : RowOf rows columns source)
    (rowValue : α) {done rest : List α} (hsplit : columns = done ++ rest) {target : List Nat}
    (hlength : target.length = columns.length + 1)
    (htarget : ∀ column ≤ done.length, target.getD column 0 =
      editDistance (rows ++ [rowValue]) (columns.take column)) :
    RowOf (rows ++ [rowValue]) columns
      (fillColumns rowValue source rest done.length target) := by
  induction rest generalizing done target with
  | nil =>
    refine ⟨hlength, fun column hcolumn => htarget column ?_⟩
    rwa [hsplit, List.append_nil] at hcolumn
  | cons columnValue rest ih =>
    have hcount := congrArg List.length hsplit
    rw [List.length_append, List.length_cons] at hcount
    have hnext := @ih (done ++ [columnValue]) (by rw [hsplit, List.append_assoc]; rfl)
      (target.set (done.length + 1)
        (min (min (source.getD (done.length + 1) 0 + 1) (target.getD done.length 0 + 1))
          (source.getD done.length 0 + if rowValue ≠ columnValue then 1 else 0)))
      (by rw [List.length_set, hlength]) ?_
    · rw [List.length_append, List.length_singleton] at hnext
      exact hnext
    intro column hcolumn
    rw [List.length_append, List.length_singleton] at hcolumn
    rcases Nat.lt_or_eq_of_le hcolumn with hbefore | rfl
    · rw [getD_set_of_ne (by omega)]
      exact htarget column (by omega)
    · have htake : columns.take (done.length + 1) = columns.take done.length ++ [columnValue] := by
        rw [hsplit, List.take_left, List.take_add_one, List.take_left,
          List.getElem?_append_right (Nat.le_refl _), Nat.sub_self]
        rfl
      have hcost : (if rowValue ≠ columnValue then 1 else 0) = mismatch rowValue columnValue :=
        ite_not _ _ _
      rw [getD_set_self (by omega), htarget done.length (Nat.le_refl _),
        hsource.2 done.length (by omega), hsource.2 (done.length + 1) (by omega), htake,
        editDistance_concat, hcost]

theorem fillRows_spec {done rest : List α} {source target : List Nat}
    (hsource : RowOf done columns source) (hlength : target.length = columns.length + 1) :
    RowOf (done ++ rest) columns (fillRows columns rest done.length source target) := by
  induction rest generalizing done source target with
  | nil =>
    rw [List.append_nil]
    exact hsource
  | cons rowValue rest ih =>
    have hfilled := @fillColumns_spec _ _ columns done source hsource rowValue [] columns rfl
      (target.set 0 (done.length + 1)) (by rw [List.length_set, hlength]) (by
        intro column hcolumn
        rw [Nat.le_zero.mp hcolumn, getD_set_self (by omega), List.take_zero,
          editDistance_nil_right, List.length_append]
        rfl)
    have hnext := ih hfilled hsource.1
    rw [List.length_append, List.length_singleton, List.append_assoc] at hnext
    exact hnext

theorem distanceRows_eq (rows : List α) {rowBuffer : List Nat}
    (hbuffer : rowBuffer.length = (columns.length + 1) * 2) :
    distanceRows rows columns rowBuffer = editDistance rows columns := by
  have hstart : RowOf [] columns
      ((rowBuffer.take (columns.length + 1)).mapIdx fun index _ => index) := by
    have hlength : (rowBuffer.take (columns.length + 1)).length = columns.length + 1 := by
      rw [List.length_take, hbuffer]
      omega
    refine ⟨by rw [List.length_mapIdx, hlength], fun column hcolumn => ?_⟩
    obtain ⟨item, hitem⟩ : ∃ item, (rowBuffer.take (columns.length + 1))[column]? = some item :=
      ⟨_, List.getElem?_eq_getElem (by omega)⟩
    rw [List.getD_eq_getElem?_getD, List.getElem?_mapIdx, hitem, editDistance_nil_left,
      List.length_take, Nat.min_eq_left hcolumn]
    rfl
  have hfilled := @fillRows_spec _ _ columns [] rows _ (rowBuffer.drop (columns.length + 1)) hstart
    (by rw [List.length_drop, hbuffer]; omega)
  have hlast := hfilled.2 columns.length (Nat.le_refl _)
  rw [List.nil_append, List.take_length] at hlast
  exact hlast

theorem sequenceDistance_eq (left right : List α) :
    sequenceDistance left right = editDistance left right := by
  have hbuffers (rows columns : List α) :
      (if columns.length < wordBits then
        distanceRows rows columns
          ((List.replicate (2 * (wordBits + 1)) 0).take ((columns.length + 1) * 2))
      else distanceRows rows columns (List.replicate ((columns.length + 1) * 2) 0)) =
        editDistance rows columns := by
    split
    next hshort =>
      apply distanceRows_eq
      rw [List.length_take, List.length_replicate]
      unfold wordBits at *
      omega
    next => exact distanceRows_eq rows List.length_replicate
  unfold sequenceDistance
  by_cases h : left.length < right.length
  · rw [if_pos h]
    exact hbuffers left right
  · rw [if_neg h, editDistance_comm]
    exact hbuffers right left

end Rows

theorem charDistance_eq {left right : List Char} (hleft : left ≠ []) (hright : right ≠ []) :
    charDistance left right = editDistance left right := by
  have hwords {shorter : List Char} (longer : List Char) (hne : shorter ≠ []) :
      (if shorter.length ≤ wordBits then myersDistance shorter longer
      else usizeDistance longer shorter) = editDistance shorter longer := by
    split
    next hfits => exact myersDistance_eq hne hfits longer
    next =>
      rw [editDistance_comm]
      exact distanceRows_eq longer List.length_replicate
  unfold charDistance
  by_cases h : left.length ≤ right.length
  · rw [if_pos h]
    exact hwords right hleft
  · rw [if_neg h, editDistance_comm]
    exact hwords left hright

section Scores

variable {Score : Type} (scoring : Scoring Score)

theorem charSequenceSimilarity_eq {left right : List Char} (hleft : left ≠ []) (hright : right ≠ []) :
    charSequenceSimilarity scoring left right =
      scoring.normalized (editDistance left right) (max left.length right.length) := by
  have hlonger : (if left.length ≤ right.length then right else left).length =
      max left.length right.length := by
    split
    next h => exact (max_eq_right h).symm
    next h => exact (max_eq_left (Nat.le_of_not_le h)).symm
  unfold charSequenceSimilarity
  rw [List.isEmpty_eq_false_iff.mpr hleft, List.isEmpty_eq_false_iff.mpr hright,
    charDistance_eq hleft hright, ← hlonger]
  rfl

theorem sequenceSimilarity_eq {α : Type} [DecidableEq α] {left right : List α} (hleft : left ≠ [])
    (hright : right ≠ []) :
    sequenceSimilarity scoring left right =
      scoring.normalized (editDistance left right) (max left.length right.length) := by
  have hcolumns : (if left.length < right.length then right else left).length =
      max left.length right.length := by
    split
    next h => exact (max_eq_right (Nat.le_of_lt h)).symm
    next h => exact (max_eq_left (Nat.not_lt.mp h)).symm
  unfold sequenceSimilarity
  rw [List.isEmpty_eq_false_iff.mpr hleft, List.isEmpty_eq_false_iff.mpr hright,
    sequenceDistance_eq, ← hcolumns]
  rfl

theorem similarities_agree (left right : List Char) :
    charSequenceSimilarity scoring left right = sequenceSimilarity scoring left right := by
  by_cases hleft : left = []
  · subst hleft
    rfl
  by_cases hright : right = []
  · subst hright
    unfold charSequenceSimilarity sequenceSimilarity
    rw [List.isEmpty_eq_false_iff.mpr hleft]
    rfl
  rw [charSequenceSimilarity_eq scoring hleft hright, sequenceSimilarity_eq scoring hleft hright]

theorem charSequenceSimilarity_comm (left right : List Char) :
    charSequenceSimilarity scoring left right = charSequenceSimilarity scoring right left := by
  by_cases hleft : left = []
  · subst hleft
    cases right <;> rfl
  by_cases hright : right = []
  · subst hright
    cases left <;> rfl
  rw [charSequenceSimilarity_eq scoring hleft hright, charSequenceSimilarity_eq scoring hright hleft,
    editDistance_comm, Nat.max_comm]

end Scores

/-- The distance in one word is the edit distance, so are the ones both entry points use, and the
two score every pair alike, whichever side comes first. -/
theorem distances_agree :
    (∀ pattern text : List Char, pattern ≠ [] → pattern.length ≤ 64 →
      myersDistance pattern text = editDistance pattern text) ∧
    (∀ left right : List Char, left ≠ [] → right ≠ [] →
      charDistance left right = editDistance left right ∧
        sequenceDistance left right = editDistance left right) ∧
    (∀ (Score : Type) (scoring : Scoring Score) (left right : List Char),
      charSequenceSimilarity scoring left right = sequenceSimilarity scoring left right ∧
        charSequenceSimilarity scoring left right = charSequenceSimilarity scoring right left) := by
  refine ⟨fun pattern text hne hwidth => myersDistance_eq hne hwidth text,
    fun left right hleft hright => ⟨charDistance_eq hleft hright, sequenceDistance_eq left right⟩,
    fun Score scoring left right => ?_⟩
  exact ⟨similarities_agree scoring left right, charSequenceSimilarity_comm scoring left right⟩

/-- A pattern of one character. -/
theorem distances_agree_single :
    myersDistance ['a'] ['b', 'a'] = editDistance ['a'] ['b', 'a'] :=
  distances_agree.1 ['a'] ['b', 'a'] (by decide) (by decide)

end LogicalWorks.Similarity
