import LogicalWorks.Lib.Ordered

/-! Rows in any order collapsed into an ordered map, the last row of a repeated key winning. -/
namespace LogicalWorks.Ordered

variable {κ α : Type} [LinearOrder κ] {key asked : κ} {value : α} {rows : List (κ × α)}

def lastOf (rows : List (κ × α)) (key : κ) : Option α :=
  ((rows.filter fun row => decide (row.1 = key)).getLast?).map Prod.snd

theorem lastOf_append (rows : List (κ × α)) (last : κ × α) (key : κ) :
    lastOf (rows ++ [last]) key = if last.1 = key then some last.2 else lastOf rows key := by
  unfold lastOf
  rw [List.filter_append]
  by_cases hkey : last.1 = key
  · simp [hkey]
  · simp [hkey]

theorem get_ofList (rows : List (κ × α)) (key : κ) : (ofList rows).get key = lastOf rows key := by
  induction rows using List.reverseRecOn with
  | nil => rfl
  | append_singleton rows last ih =>
    have hall : ofList (rows ++ [last]) = (ofList rows).insert last.1 last.2 := by
      unfold ofList
      rw [List.foldl_append, List.foldl_cons, List.foldl_nil]
    rw [hall, get_insert, lastOf_append, ih]
    by_cases hkey : last.1 = key
    · rw [if_pos hkey, if_pos hkey.symm]
    · rw [if_neg hkey, if_neg (Ne.symm hkey)]

theorem get_eq_some {map : Ordered κ α} : map.get key = some value ↔ (key, value) ∈ map.rows := by
  obtain ⟨rows, hsorted⟩ := map
  unfold get
  dsimp only
  constructor
  · intro h
    obtain ⟨row, hfind, rfl⟩ := Option.map_eq_some_iff.mp h
    have hkey : row.1 = key := of_decide_eq_true
      (@List.find?_some _ (fun row : κ × α => decide (row.1 = key)) _ _ hfind)
    rw [← hkey]
    exact List.mem_of_find?_eq_some hfind
  · intro hmem
    induction rows with
    | nil => cases hmem
    | cons first rest ih =>
      obtain ⟨hfirst, hrest⟩ := List.pairwise_cons.mp hsorted
      rcases List.mem_cons.mp hmem with rfl | hlater
      · simp
      · have hne : first.1 ≠ key := ne_of_lt (hfirst _ hlater)
        rw [List.find?_cons_of_neg (by simpa using hne)]
        exact ih hrest hlater

theorem get_eq_none {map : Ordered κ α} : map.get key = none ↔ key ∉ map.rows.map Prod.fst := by
  constructor
  · intro h hmem
    obtain ⟨row, hrow, rfl⟩ := List.mem_map.mp hmem
    have hsome : map.get row.1 = some row.2 := get_eq_some.mpr hrow
    rw [h] at hsome
    cases hsome
  · intro h
    cases hget : map.get key with
    | none => rfl
    | some value => exact absurd (List.mem_map_of_mem (get_eq_some.mp hget)) h

theorem ext_rows {left right : Ordered κ α} (h : left.rows = right.rows) : left = right := by
  cases left
  cases right
  cases h
  rfl

theorem ext_get {left right : Ordered κ α} (h : ∀ key, left.get key = right.get key) :
    left = right := by
  have hmem : ∀ row, row ∈ left.rows ↔ row ∈ right.rows := by
    intro row
    rw [← get_eq_some, ← get_eq_some, h]
  have hnodup : ∀ map : Ordered κ α, map.rows.Nodup := fun map =>
    map.sorted.imp fun hlt heq => absurd (congrArg Prod.fst heq) (ne_of_lt hlt)
  have hperm : left.rows.Perm right.rows :=
    (List.perm_ext_iff_of_nodup (hnodup left) (hnodup right)).mpr hmem
  exact ext_rows (hperm.eq_of_pairwise (fun _ _ _ _ hlt hgt => absurd hgt (lt_asymm hlt))
    left.sorted right.sorted)

def remove (map : Ordered κ α) (key : κ) : Ordered κ α :=
  ⟨map.rows.filter fun row => decide (row.1 ≠ key), map.sorted.filter _⟩

def modify (map : Ordered κ α) (key : κ) (change : α → α) : Ordered κ α where
  rows := map.rows.map fun row => if row.1 = key then (row.1, change row.2) else row
  sorted := by
    refine List.pairwise_map.mpr (map.sorted.imp fun {left right} hlt => ?_)
    have hfst : ∀ row : κ × α, (if row.1 = key then (row.1, change row.2) else row).1 = row.1 := by
      intro row
      split <;> rfl
    rw [hfst, hfst]
    exact hlt

theorem map_change_eq_self {change : α → α} (h : ∀ row ∈ rows, row.1 ≠ key) :
    rows.map (fun row => if row.1 = key then (row.1, change row.2) else row) = rows :=
  (List.map_congr_left fun row hrow => if_neg (h row hrow)).trans rows.map_id

theorem get_remove (map : Ordered κ α) (key asked : κ) [Decidable (asked = key)] :
    (map.remove key).get asked = if asked = key then none else map.get asked := by
  unfold get remove
  dsimp only
  rw [List.find?_filter]
  split
  · rename_i hsame
    subst hsame
    rw [List.find?_eq_none.mpr]
    · rfl
    · intro row _
      simp
  · rename_i hother
    congr 2
    funext row
    by_cases hrow : row.1 = asked
    · simp [hrow, hother]
    · simp [hrow]

theorem get_modify (map : Ordered κ α) (key asked : κ) (change : α → α) [Decidable (asked = key)] :
    (map.modify key change).get asked =
      if asked = key then (map.get key).map change else map.get asked := by
  unfold get modify
  dsimp only
  have hfst : ∀ row : κ × α, (if row.1 = key then (row.1, change row.2) else row).1 = row.1 := by
    intro row
    split <;> rfl
  rw [List.find?_map]
  simp only [Function.comp_def, hfst]
  rw [Option.map_map]
  split
  · rename_i hsame
    subst hsame
    cases hfind : map.rows.find? fun row => decide (row.1 = asked) with
    | none => rfl
    | some row =>
      have hrow : row.1 = asked := of_decide_eq_true
        (@List.find?_some _ (fun row : κ × α => decide (row.1 = asked)) _ _ hfind)
      simp [hrow]
  · rename_i hother
    cases hfind : map.rows.find? fun row => decide (row.1 = asked) with
    | none => rfl
    | some row =>
      have hrow : row.1 = asked := of_decide_eq_true
        (@List.find?_some _ (fun row : κ × α => decide (row.1 = asked)) _ _ hfind)
      simp [hrow, hother]

/-- Fold each run of one key into one row, which keeps the last value of the run. -/
def dedupFrom (kept : κ × α) : List (κ × α) → List (κ × α)
  | [] => [kept]
  | later :: rest =>
    if later.1 = kept.1 then dedupFrom (kept.1, later.2) rest else kept :: dedupFrom later rest

def dedup : List (κ × α) → List (κ × α)
  | [] => []
  | first :: rest => dedupFrom first rest

theorem rows_foldl (map : Ordered κ α) (rows : List (κ × α)) :
    (rows.foldl (fun map row => map.insert row.1 row.2) map).rows =
      rows.foldl (fun held row => put row.1 row.2 held) map.rows := by
  induction rows generalizing map with
  | nil => rfl
  | cons row rest ih => exact ih (map.insert row.1 row.2)

theorem put_last {kept : κ × α} (h : ∀ row ∈ rows, row.1 < kept.1) :
    put kept.1 value (rows ++ [kept]) = rows ++ [(kept.1, value)] := by
  induction rows with
  | nil =>
    rw [List.nil_append, List.nil_append]
    unfold put
    rw [if_neg (lt_irrefl _), if_pos rfl]
  | cons first rest ih =>
    have hfirst := h first List.mem_cons_self
    rw [List.cons_append]
    unfold put
    rw [if_neg (not_lt.mpr (le_of_lt hfirst)), if_neg (ne_of_lt hfirst),
      ih fun row hrow => h row (List.mem_cons_of_mem _ hrow), List.cons_append]

theorem foldl_put_eq_dedupFrom {kept : κ × α} {earlier : List (κ × α)}
    (hearlier : ∀ row ∈ earlier, row.1 < kept.1)
    (hrows : (kept :: rows).Pairwise fun left right => left.1 ≤ right.1) :
    rows.foldl (fun held row => put row.1 row.2 held) (earlier ++ [kept]) =
      earlier ++ dedupFrom kept rows := by
  induction rows generalizing kept earlier with
  | nil => rfl
  | cons later rest ih =>
    obtain ⟨hkept, hrest⟩ := List.pairwise_cons.mp hrows
    obtain ⟨hlater, hothers⟩ := List.pairwise_cons.mp hrest
    rw [List.foldl_cons]
    unfold dedupFrom
    split
    · rename_i hsame
      rw [hsame, put_last hearlier]
      refine @ih (kept.1, later.2) earlier hearlier (List.pairwise_cons.mpr ⟨?_, hothers⟩)
      intro row hrow
      exact hkept row (List.mem_cons_of_mem _ hrow)
    · rename_i hother
      have hlt : kept.1 < later.1 :=
        lt_of_le_of_ne (hkept later List.mem_cons_self) (Ne.symm hother)
      have hbefore : ∀ row ∈ earlier ++ [kept], row.1 < later.1 := by
        intro row hrow
        rcases List.mem_append.mp hrow with hrow | hrow
        · exact lt_trans (hearlier row hrow) hlt
        · rw [List.mem_singleton.mp hrow]
          exact hlt
      rw [put_of_forall_lt hbefore, ih hbefore hrest, List.append_assoc, List.singleton_append]

theorem rows_ofList_of_sorted (h : rows.Pairwise fun left right => left.1 ≤ right.1) :
    (ofList rows).rows = dedup rows := by
  cases rows with
  | nil => rfl
  | cons first rest =>
    unfold ofList
    rw [rows_foldl]
    exact @foldl_put_eq_dedupFrom κ α _ rest first [] (fun _ hrow => absurd hrow List.not_mem_nil) h

def sortRows (rows : List (κ × α)) : List (κ × α) :=
  rows.mergeSort fun left right => decide (left.1 ≤ right.1)

theorem le_trans_rows (left middle right : κ × α) (hleft : decide (left.1 ≤ middle.1) = true)
    (hright : decide (middle.1 ≤ right.1) = true) : decide (left.1 ≤ right.1) = true :=
  decide_eq_true (le_trans (of_decide_eq_true hleft) (of_decide_eq_true hright))

theorem le_total_rows (left right : κ × α) :
    (decide (left.1 ≤ right.1) || decide (right.1 ≤ left.1)) = true := by
  rcases le_total left.1 right.1 with hle | hle
  · simp [hle]
  · simp [hle]

theorem sorted_sortRows (rows : List (κ × α)) :
    (sortRows rows).Pairwise fun left right => left.1 ≤ right.1 :=
  (List.pairwise_mergeSort le_trans_rows le_total_rows rows).imp of_decide_eq_true

theorem filter_sortRows (rows : List (κ × α)) (key : κ) :
    (sortRows rows).filter (fun row => decide (row.1 = key)) =
      rows.filter fun row => decide (row.1 = key) := by
  have hsame : (rows.filter fun row => decide (row.1 = key)).Pairwise
      fun left right => decide (left.1 ≤ right.1) = true := by
    refine List.pairwise_of_forall_mem_list ?_
    intro left hleft right hright
    have hl : left.1 = key := of_decide_eq_true (List.mem_filter.mp hleft).2
    have hr : right.1 = key := of_decide_eq_true (List.mem_filter.mp hright).2
    exact decide_eq_true (le_of_eq (hl.trans hr.symm))
  have hsub := (List.sublist_mergeSort le_trans_rows le_total_rows hsame List.filter_sublist).filter
    fun row => decide (row.1 = key)
  rw [List.filter_filter, List.filter_congr (fun _ _ => Bool.and_self _)] at hsub
  refine (hsub.eq_of_length ?_).symm
  exact ((List.mergeSort_perm rows _).filter _).length_eq.symm

theorem lastOf_sortRows (rows : List (κ × α)) (key : κ) :
    lastOf (sortRows rows) key = lastOf rows key := by
  unfold lastOf
  rw [filter_sortRows]

theorem dedup_sortRows (rows : List (κ × α)) : dedup (sortRows rows) = (ofList rows).rows := by
  rw [← rows_ofList_of_sorted (sorted_sortRows rows)]
  congr 1
  refine ext_get fun key => ?_
  rw [get_ofList, get_ofList, lastOf_sortRows]

end LogicalWorks.Ordered
