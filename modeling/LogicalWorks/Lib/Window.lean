import Mathlib.Data.List.Basic
import Mathlib.Algebra.Order.Ring.Nat

/-! Sliding windows: an output built of literals, and of copies from what was built before. -/
namespace LogicalWorks.Window

variable {α : Type}

inductive Item (α : Type) where
  | literal (value : α)
  | copy (offset length : Nat)
  deriving DecidableEq, Repr

def copyBack (offset : Nat) : Nat → List α → Option (List α)
  | 0, out => some out
  | length + 1, out => (out[out.length - offset]?).bind fun value =>
    copyBack offset length (out ++ [value])

namespace Item

def length : Item α → Nat
  | literal _ => 1
  | copy _ length => length

def play (out : List α) : Item α → Option (List α)
  | literal value => some (out ++ [value])
  | copy offset length =>
    if 0 < offset ∧ offset ≤ out.length then copyBack offset length out else none

def Matches (data : List α) (place : Nat) : Item α → Prop
  | literal value => data[place]? = some value
  | copy offset length => 0 < offset ∧ offset ≤ place ∧ place + length ≤ data.length ∧
      ∀ step < length, data[place - offset + step]? = data[place + step]?

end Item

def Tiles (data : List α) : Nat → List (Item α) → Prop
  | _, [] => True
  | place, item :: rest => item.Matches data place ∧ Tiles data (place + item.length) rest

def total (items : List (Item α)) : Nat := (items.map Item.length).sum

def play : List (Item α) → List α → Option (List α)
  | [], out => some out
  | item :: rest, out => (item.play out).bind (play rest)

@[simp] theorem total_nil : total ([] : List (Item α)) = 0 := rfl

@[simp] theorem total_cons (item : Item α) (rest : List (Item α)) :
    total (item :: rest) = item.length + total rest := rfl

theorem total_append (first later : List (Item α)) :
    total (first ++ later) = total first + total later := by
  simp [total]

theorem tiles_append {data : List α} {first later : List (Item α)} :
    ∀ {place : Nat}, Tiles data place (first ++ later) ↔
      Tiles data place first ∧ Tiles data (place + total first) later := by
  induction first with
  | nil => simp [Tiles]
  | cons item rest ih =>
    intro place
    rw [List.cons_append, Tiles, Tiles, ih, total_cons, Nat.add_assoc, and_assoc]

theorem Item.Matches.le {data : List α} {place : Nat} {item : Item α}
    (h : item.Matches data place) : place + item.length ≤ data.length := by
  cases item with
  | literal value => exact (List.getElem?_eq_some_iff.mp h).1
  | copy offset length => exact h.2.2.1

theorem Tiles.le {data : List α} {items : List (Item α)} : ∀ {place : Nat},
    Tiles data place items → place ≤ data.length → place + total items ≤ data.length := by
  induction items with
  | nil => exact fun _ h => h
  | cons item rest ih =>
    intro place h hplace
    rw [total_cons, ← Nat.add_assoc]
    exact ih h.2 h.1.le

theorem take_succ {data : List α} {place : Nat} {value : α} (h : data[place]? = some value) :
    data.take place ++ [value] = data.take (place + 1) := by
  rw [List.take_add_one, h]
  rfl

theorem copyBack_take {data : List α} {offset : Nat} (length : Nat) :
    ∀ place, 0 < offset → offset ≤ place → place + length ≤ data.length →
      (∀ step < length, data[place - offset + step]? = data[place + step]?) →
        copyBack offset length (data.take place) = some (data.take (place + length)) := by
  induction length with
  | zero => intros; rfl
  | succ length ih =>
    intro place hpos hback hroom hsame
    have hin : place < data.length := by omega
    have hhere : data[place - offset]? = some data[place] := by
      rw [← List.getElem?_eq_getElem hin]
      exact hsame 0 (Nat.succ_pos _)
    have hlength : (data.take place).length = place := List.length_take_of_le (by omega)
    have hread : (data.take place)[(data.take place).length - offset]? = some data[place] := by
      rw [hlength, List.getElem?_take_of_lt (by omega), hhere]
    rw [copyBack, hread, Option.bind_some, take_succ (List.getElem?_eq_getElem hin),
      ih (place + 1) hpos (by omega) (by omega), Nat.add_assoc, Nat.add_comm 1]
    intro step hstep
    have hnext := hsame (step + 1) (by omega)
    have hplace : place + 1 - offset + step = place - offset + (step + 1) := by omega
    rw [hplace, hnext, Nat.add_assoc, Nat.add_comm 1]

end LogicalWorks.Window
