import LogicalWorks.Lib.Bytes
import LogicalWorks.Lib.Collapse
import Mathlib.Data.List.Lex

/-! A JSON object's members in one vector, sorted by the bytes of their keys. -/
namespace LogicalWorks.Json

structure Text where
  bytes : Bytes
  deriving DecidableEq, Repr

def Text.numbers (text : Text) : List Nat := text.bytes.map UInt8.toNat

theorem Text.numbers_inj : Function.Injective Text.numbers := by
  intro left right h
  have hbytes : left.bytes = right.bytes :=
    List.map_injective_iff.mpr (fun _ _ heq => UInt8.toNat_inj.mp heq) h
  cases left
  cases right
  cases hbytes
  rfl

instance : LinearOrder Text := LinearOrder.lift' Text.numbers Text.numbers_inj

variable {V : Type}

section Entries

/-- Whether each pair of neighbours is in order, no key twice. -/
def ascending : List (Text × V) → Bool
  | [] | [_] => true
  | left :: right :: rest => left.1 < right.1 && ascending (right :: rest)

def position (entries : List (Text × V)) (key : Text) : Except Nat Nat :=
  let index := (entries.takeWhile fun entry => decide (entry.1 < key)).length
  if (entries[index]?).map Prod.fst = some key then .ok index else .error index

def fromMembers (entries : List (Text × V)) : List (Text × V) :=
  if ascending entries then entries else Ordered.dedup (Ordered.sortRows entries)

def insertEntry (entries : List (Text × V)) (key : Text) (value : V) : Option V × List (Text × V) :=
  match position entries key with
  | .ok index =>
    ((entries[index]?).map Prod.snd, entries.modify index fun entry => (entry.1, value))
  | .error index => (none, entries.insertIdx index (key, value))

def removeEntry (entries : List (Text × V)) (key : Text) : Option V × List (Text × V) :=
  match position entries key with
  | .ok index => ((entries[index]?).map Prod.snd, entries.eraseIdx index)
  | .error _ => (none, entries)

def mutateEntry (entries : List (Text × V)) (key : Text) (change : V → V) : List (Text × V) :=
  match position entries key with
  | .ok index => entries.modify index fun entry => (entry.1, change entry.2)
  | .error _ => entries

def getEntry (entries : List (Text × V)) (key : Text) : Option V :=
  match position entries key with
  | .ok index => (entries[index]?).map Prod.snd
  | .error _ => none

def containsEntry (entries : List (Text × V)) (key : Text) : Bool :=
  match position entries key with
  | .ok _ => true
  | .error _ => false

end Entries

section Position

variable {first : Text × V} {rest entries : List (Text × V)} {key : Text} {value : V}

theorem position_cons_of_lt (h : first.1 < key) :
    position (first :: rest) key =
      match position rest key with
      | .ok index => .ok (index + 1)
      | .error index => .error (index + 1) := by
  unfold position
  rw [List.takeWhile_cons_of_pos (by simpa using h)]
  dsimp only
  rw [List.length_cons, List.getElem?_cons_succ]
  split
  · rfl
  · rfl

theorem position_cons_self : position (first :: rest) first.1 = .ok 0 := by
  unfold position
  rw [List.takeWhile_cons_of_neg (by simp)]
  exact if_pos rfl

theorem position_cons_of_gt (h : key < first.1) : position (first :: rest) key = .error 0 := by
  unfold position
  rw [List.takeWhile_cons_of_neg (by simpa using le_of_lt h)]
  exact if_neg fun hsame => ne_of_gt h (Option.some.inj hsame)

theorem insertEntry_snd : (insertEntry entries key value).2 = Ordered.put key value entries := by
  induction entries with
  | nil => rfl
  | cons first rest ih =>
    unfold insertEntry at ih ⊢
    unfold Ordered.put
    rcases lt_trichotomy first.1 key with hlt | heq | hgt
    · rw [position_cons_of_lt hlt, if_neg (not_lt.mpr (le_of_lt hlt)), if_neg (ne_of_lt hlt), ← ih]
      cases position rest key with
      | ok index => rfl
      | error index => rfl
    · subst heq
      rw [position_cons_self, if_neg (lt_irrefl _), if_pos rfl]
      rfl
    · rw [position_cons_of_gt hgt, if_pos hgt]
      rfl

theorem getEntry_eq (map : Ordered Text V) (key : Text) : getEntry map.rows key = map.get key := by
  obtain ⟨entries, hsorted⟩ := map
  dsimp only
  induction entries with
  | nil => rfl
  | cons first rest ih =>
    obtain ⟨hfirst, hrest⟩ := List.pairwise_cons.mp hsorted
    have hbehind := ih hrest
    unfold getEntry at hbehind ⊢
    unfold Ordered.get at hbehind ⊢
    rcases lt_trichotomy first.1 key with hlt | heq | hgt
    · rw [position_cons_of_lt hlt, List.find?_cons_of_neg (by simpa using ne_of_lt hlt), ← hbehind]
      cases position rest key with
      | ok index => rfl
      | error index => rfl
    · subst heq
      rw [position_cons_self, List.find?_cons_of_pos (by simp)]
      rfl
    · rw [position_cons_of_gt hgt, List.find?_eq_none.mpr]
      · rfl
      · intro entry hentry
        rcases List.mem_cons.mp hentry with rfl | hlater
        · simpa using ne_of_gt hgt
        · simpa using ne_of_gt (lt_trans hgt (hfirst entry hlater))

theorem insertEntry_fst : (insertEntry entries key value).1 = getEntry entries key := by
  unfold insertEntry getEntry
  split <;> rfl

theorem removeEntry_fst : (removeEntry entries key).1 = getEntry entries key := by
  unfold removeEntry getEntry
  split <;> rfl

theorem position_eq_ok {index : Nat} (h : position entries key = .ok index) :
    (entries[index]?).map Prod.fst = some key := by
  unfold position at h
  dsimp only at h
  split at h
  · rename_i hfound
    cases h
    exact hfound
  · cases h

theorem containsEntry_eq : containsEntry entries key = (getEntry entries key).isSome := by
  unfold containsEntry getEntry
  cases hposition : position entries key with
  | error index => rfl
  | ok index =>
    have hfound := position_eq_ok hposition
    cases hentry : entries[index]? with
    | none => rw [hentry] at hfound; cases hfound
    | some entry => simp [hentry]

theorem ne_of_gt_first (hsorted : (first :: rest).Pairwise fun left right => left.1 < right.1)
    (h : key ≤ first.1) : ∀ entry ∈ rest, entry.1 ≠ key := by
  intro entry hentry
  exact ne_of_gt (lt_of_le_of_lt h ((List.pairwise_cons.mp hsorted).1 entry hentry))

theorem removeEntry_snd (map : Ordered Text V) (key : Text) :
    (removeEntry map.rows key).2 = (map.remove key).rows := by
  obtain ⟨entries, hsorted⟩ := map
  unfold Ordered.remove
  dsimp only
  induction entries with
  | nil => rfl
  | cons first rest ih =>
    have hbehind := ih (List.pairwise_cons.mp hsorted).2
    unfold removeEntry at hbehind ⊢
    rcases lt_trichotomy first.1 key with hlt | heq | hgt
    · rw [position_cons_of_lt hlt, List.filter_cons_of_pos (by simpa using ne_of_lt hlt), ← hbehind]
      cases position rest key with
      | ok index => rfl
      | error index => rfl
    · subst heq
      rw [position_cons_self, List.filter_cons_of_neg (by simp), List.filter_eq_self.mpr]
      · rfl
      · intro entry hentry
        simpa using ne_of_gt_first hsorted (le_refl _) entry hentry
    · rw [position_cons_of_gt hgt, List.filter_eq_self.mpr]
      intro entry hentry
      rcases List.mem_cons.mp hentry with rfl | hlater
      · simpa using ne_of_gt hgt
      · simpa using ne_of_gt_first hsorted (le_of_lt hgt) entry hlater

theorem mutateEntry_eq (map : Ordered Text V) (key : Text) (change : V → V) :
    mutateEntry map.rows key change = (map.modify key change).rows := by
  obtain ⟨entries, hsorted⟩ := map
  unfold Ordered.modify
  dsimp only
  induction entries with
  | nil => rfl
  | cons first rest ih =>
    have hbehind := ih (List.pairwise_cons.mp hsorted).2
    have hrest := fun hle : key ≤ first.1 =>
      @Ordered.map_change_eq_self _ _ _ key rest change (ne_of_gt_first hsorted hle)
    unfold mutateEntry at hbehind ⊢
    rw [List.map_cons]
    rcases lt_trichotomy first.1 key with hlt | heq | hgt
    · rw [position_cons_of_lt hlt, if_neg (ne_of_lt hlt), ← hbehind]
      cases position rest key with
      | ok index => rfl
      | error index => rfl
    · subst heq
      rw [position_cons_self, if_pos rfl, hrest (le_refl _)]
      rfl
    · rw [position_cons_of_gt hgt, if_neg (ne_of_gt hgt), hrest (le_of_lt hgt)]

theorem sorted_removeEntry (map : Ordered Text V) (key : Text) :
    (removeEntry map.rows key).2.Pairwise fun left right => left.1 < right.1 := by
  rw [removeEntry_snd]
  exact (map.remove key).sorted

theorem sorted_mutateEntry (map : Ordered Text V) (key : Text) (change : V → V) :
    (mutateEntry map.rows key change).Pairwise fun left right => left.1 < right.1 := by
  rw [mutateEntry_eq]
  exact (map.modify key change).sorted

theorem ascending_iff :
    ascending entries = true ↔ entries.Pairwise fun left right => left.1 < right.1 := by
  induction entries with
  | nil => simp [ascending]
  | cons first rest ih =>
    cases rest with
    | nil => simp [ascending]
    | cons second others =>
      unfold ascending
      rw [Bool.and_eq_true, ih, decide_eq_true_iff, List.pairwise_cons (a := first)]
      refine and_congr_left fun hrest => ?_
      constructor
      · intro hlt entry hentry
        rcases List.mem_cons.mp hentry with rfl | hlater
        · exact hlt
        · exact lt_trans hlt ((List.pairwise_cons.mp hrest).1 entry hlater)
      · intro hall
        exact hall second List.mem_cons_self

theorem fromMembers_eq (entries : List (Text × V)) :
    fromMembers entries = (Ordered.ofList entries).rows := by
  unfold fromMembers
  split
  · rename_i hascending
    exact (congrArg Ordered.rows (Ordered.ofList_rows ⟨entries, ascending_iff.mp hascending⟩)).symm
  · exact Ordered.dedup_sortRows entries

end Position

end LogicalWorks.Json
