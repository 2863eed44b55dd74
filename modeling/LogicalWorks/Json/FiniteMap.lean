import LogicalWorks.Json.Map
import Mathlib.Data.Set.Card

/-! A map answers as the finite map that the same operations make, the last value winning. -/
namespace LogicalWorks.Json

variable {V : Type}

/-- An object's members: keys in ascending byte order, each once. -/
structure Map (V : Type) where
  entries : List (Text × V)
  sorted : entries.Pairwise fun left right => left.1 < right.1

namespace Map

def new : Map V := ⟨[], .nil⟩

def held (map : Map V) : Ordered Text V := ⟨map.entries, map.sorted⟩

def ofMembers (entries : List (Text × V)) : Map V where
  entries := fromMembers entries
  sorted := by
    rw [fromMembers_eq]
    exact (Ordered.ofList entries).sorted

def insert (map : Map V) (key : Text) (value : V) : Option V × Map V :=
  ((insertEntry map.entries key value).1,
    { entries := (insertEntry map.entries key value).2
      sorted := by
        rw [insertEntry_snd]
        exact Ordered.sorted_put map.sorted })

def getMut (map : Map V) (key : Text) (change : V → V) : Option V × Map V :=
  (getEntry map.entries key,
    { entries := mutateEntry map.entries key change
      sorted := sorted_mutateEntry map.held key change })

def remove (map : Map V) (key : Text) : Option V × Map V :=
  ((removeEntry map.entries key).1,
    { entries := (removeEntry map.entries key).2
      sorted := sorted_removeEntry map.held key })

def get (map : Map V) (key : Text) : Option V := getEntry map.entries key

def containsKey (map : Map V) (key : Text) : Bool := containsEntry map.entries key

def len (map : Map V) : Nat := map.entries.length

def iter (map : Map V) : List (Text × V) := map.entries

end Map

inductive Operation (V : Type) where
  | fromMembers (entries : List (Text × V))
  | insert (key : Text) (value : V)
  | getMut (key : Text) (change : V → V)
  | remove (key : Text)

def Map.apply (map : Map V) : Operation V → Option V × Map V
  | .fromMembers entries => (none, .ofMembers entries)
  | .insert key value => map.insert key value
  | .getMut key change => map.getMut key change
  | .remove key => map.remove key

def Operation.on (held : Text → Option V) : Operation V → Option V × (Text → Option V)
  | .fromMembers entries =>
    (none, entries.foldl (fun held entry => Function.update held entry.1 (some entry.2))
      fun _ => none)
  | .insert key value => (held key, Function.update held key (some value))
  | .getMut key change => (held key, Function.update held key ((held key).map change))
  | .remove key => (held key, Function.update held key none)

section Refinement

variable {map : Map V}

theorem get_eq_held (map : Map V) (key : Text) : map.get key = map.held.get key :=
  getEntry_eq map.held key

theorem held_ofMembers (entries : List (Text × V)) :
    (Map.ofMembers entries).held = Ordered.ofList entries :=
  Ordered.ext_rows (fromMembers_eq entries)

theorem get_ofList_eq (entries : List (Text × V)) :
    (Ordered.ofList entries).get =
      entries.foldl (fun (held : Text → Option V) entry =>
        Function.update held entry.1 (some entry.2)) fun _ => none := by
  induction entries using List.reverseRecOn with
  | nil => rfl
  | append_singleton entries last ih =>
    rw [List.foldl_append, List.foldl_cons, List.foldl_nil, ← ih]
    funext key
    rw [Ordered.get_ofList, Ordered.lastOf_append, ← Ordered.get_ofList, Function.update_apply]
    by_cases hkey : last.1 = key
    · rw [if_pos hkey, if_pos hkey.symm]
    · rw [if_neg hkey, if_neg (Ne.symm hkey)]

theorem Map.apply_spec (map : Map V) (operation : Operation V) :
    (map.apply operation).1 = (operation.on map.held.get).1 ∧
      (map.apply operation).2.held.get = (operation.on map.held.get).2 := by
  cases operation with
  | fromMembers entries =>
    refine ⟨rfl, ?_⟩
    change (Map.ofMembers entries).held.get = _
    rw [held_ofMembers]
    exact get_ofList_eq entries
  | insert key value =>
    refine ⟨insertEntry_fst.trans (getEntry_eq map.held key), ?_⟩
    have hheld : (map.insert key value).2.held = map.held.insert key value :=
      Ordered.ext_rows insertEntry_snd
    change (map.insert key value).2.held.get = Function.update _ _ _
    rw [hheld]
    funext asked
    rw [Ordered.get_insert, Function.update_apply]
  | getMut key change =>
    refine ⟨getEntry_eq map.held key, ?_⟩
    have hheld : (map.getMut key change).2.held = map.held.modify key change :=
      Ordered.ext_rows (mutateEntry_eq map.held key change)
    change (map.getMut key change).2.held.get = Function.update _ _ _
    rw [hheld]
    funext asked
    rw [Ordered.get_modify, Function.update_apply]
  | remove key =>
    refine ⟨removeEntry_fst.trans (getEntry_eq map.held key), ?_⟩
    have hheld : (map.remove key).2.held = map.held.remove key :=
      Ordered.ext_rows (removeEntry_snd map.held key)
    change (map.remove key).2.held.get = Function.update _ _ _
    rw [hheld]
    funext asked
    rw [Ordered.get_remove, Function.update_apply]

end Refinement

structure Answers (map : Map V) (held : Text → Option V) : Prop where
  ascending : map.iter.Pairwise fun left right => left.1 < right.1
  get : ∀ key, map.get key = held key
  contains : ∀ key, map.containsKey key = (held key).isSome
  len : map.len = { key | (held key).isSome = true }.ncard
  iter : ∀ key value, (key, value) ∈ map.iter ↔ held key = some value

theorem Map.answers (map : Map V) : Answers map map.held.get where
  ascending := map.sorted
  get key := get_eq_held map key
  contains key := containsEntry_eq.trans (congrArg Option.isSome (getEntry_eq map.held key))
  len := by
    have hkeys : { key | (map.held.get key).isSome = true } =
        ((map.entries.map Prod.fst).toFinset : Set Text) := by
      ext key
      rw [List.coe_toFinset, Set.mem_ofPred_eq, Set.mem_ofPred_eq, ← not_iff_not,
        Bool.not_eq_true, Option.isSome_eq_false_iff, Option.isNone_iff_eq_none]
      exact Ordered.get_eq_none
    have hnodup : (map.entries.map Prod.fst).Nodup :=
      List.pairwise_map.mpr (map.sorted.imp fun hlt => ne_of_lt hlt)
    rw [hkeys, Set.ncard_coe_finset, List.toFinset_card_of_nodup hnodup, List.length_map]
    rfl
  iter _ _ := (@Ordered.get_eq_some _ _ _ _ _ map.held).symm

theorem answers_of_operations (operations : List (Operation V)) :
    Answers (operations.foldl (fun map operation => (map.apply operation).2) Map.new)
      (operations.foldl (fun held operation => (operation.on held).2) fun _ => none) := by
  have hheld : (operations.foldl (fun map operation => (map.apply operation).2) Map.new).held.get =
      operations.foldl (fun held operation => (operation.on held).2) fun _ => none := by
    induction operations using List.reverseRecOn with
    | nil => rfl
    | append_singleton operations last ih =>
      rw [List.foldl_append, List.foldl_append, List.foldl_cons, List.foldl_cons, List.foldl_nil,
        List.foldl_nil, ← ih]
      exact (Map.apply_spec _ last).2
  rw [← hheld]
  exact Map.answers _

end LogicalWorks.Json
