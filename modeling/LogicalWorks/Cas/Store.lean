import LogicalWorks.Cas.Document
import LogicalWorks.Lib.Run

/-! The record store: one state in memory, rewritten as a whole through a scratch file that is
renamed into place. -/
namespace LogicalWorks.Cas
open Session (Text)

inductive Content where
  | refused (error : Text)
  | document (found : Json)

structure Disk where
  file : Option Content
  scratch : Option Content

/-- How far the two file steps of a write get. -/
inductive Fate where
  | done
  | writeRefused (left : Option Content) (error : Text)
  | renameRefused (error : Text)
  | crashBefore (left : Option Content)
  | crashAfter

def Fate.lands : Fate → Bool
  | .done | .crashAfter => true
  | _ => false

def persist (scratch : Text) (disk : Disk) (state : StoreState) :
    Fate → Disk × Option (Except CasError Unit)
  | .done => (⟨some (.document (document state)), none⟩, some (.ok ()))
  | .writeRefused left error =>
    (⟨disk.file, left⟩, some (.error (.io ("writing ".toList ++ scratch ++ ": ".toList ++ error))))
  | .renameRefused error =>
    (⟨disk.file, some (.document (document state))⟩,
      some (.error (.io ("renaming ".toList ++ scratch ++ " into place: ".toList ++ error))))
  | .crashBefore left => (⟨disk.file, left⟩, none)
  | .crashAfter => (⟨some (.document (document state)), none⟩, none)

def Disk.read (disk : Disk) : Except CasError StoreState :=
  match disk.file with
  | none => .ok .empty
  | some (.refused error) => .error (.corrupt ("not a record-store document: ".toList ++ error))
  | some (.document found) => decode found

/-- Read what a previous holder left, `refusal` being what the operating system says instead. -/
def load (path : Text) (disk : Disk) (refusal : Option Text) : Except CasError StoreState :=
  match refusal with
  | some error => .error (.io ("reading ".toList ++ path ++ ": ".toList ++ error))
  | none => disk.read

def saturatingSucc (value : UInt64) : UInt64 := if value = u64Max then u64Max else value + 1

theorem noVersion_lt_max (version : UInt64) : noVersion < max version 1 := by
  change noVersion < if version ≤ 1 then 1 else version
  split
  · decide
  · rename_i hlarge
    rw [UInt64.le_iff_toNat_le] at hlarge
    rw [UInt64.lt_iff_toNat_lt]
    exact Nat.zero_lt_of_lt (Nat.not_le.mp hlarge)

def StoreState.refuse (state : StoreState) (entry : ConflictEntry) : StoreState :=
  let conflicts := state.conflicts ++ [entry]
  if maxConflicts < conflicts.length then
    { state with conflicts := conflicts.tail, evicted := saturatingSucc state.evicted }
  else { state with conflicts }

/-- The next state of a write and what it answers once that is on disk. -/
def StoreState.attempt (state : StoreState) (record : Text) (expected : UInt64) (value : Text)
    (now : WallStamp) : StoreState × Except CasError UInt64 :=
  let found := state.version record
  if found ≠ expected then
    (state.refuse ⟨record, expected, found, now⟩, .error (.conflict record expected found))
  else
    let version := max (saturatingSucc expected) 1
    ({ state with
        records := state.records.insert record ⟨version, value, noVersion_lt_max _⟩ }, .ok version)

/-- The disk and the store that lives in memory; and the writes that answered, with what they
installed, and those whose state reached the file. -/
structure World where
  disk : Disk
  live : Option StoreState
  answered : List (Text × UInt64 × UInt64 × Text)
  applied : List (Text × UInt64)

abbrev Answer := Option (Except CasError UInt64)

namespace World

def reached (world : World) (record : Text) (expected : UInt64) (fate : Fate) :
    Except CasError UInt64 → List (Text × UInt64)
  | .ok _ => if fate.lands then (record, expected) :: world.applied else world.applied
  | .error _ => world.applied

def settle (world : World) (state : StoreState) (record : Text) (expected : UInt64) (value : Text) :
    Except CasError UInt64 → World
  | .ok version =>
    { world with
      live := some state, answered := (record, expected, version, value) :: world.answered }
  | .error _ => { world with live := some state }

def write (scratch : Text) (world : World) (state : StoreState) (record : Text)
    (expected : UInt64) (value : Text) (now : WallStamp) (fate : Fate) : World × Answer :=
  let next := state.attempt record expected value now
  let persisted := persist scratch world.disk next.1 fate
  let world := { world with
    disk := persisted.1, applied := world.reached record expected fate next.2 }
  match persisted.2 with
  | none => ({ world with live := none }, none)
  | some (.error refusal) => (world, some (.error refusal))
  | some (.ok ()) => (world.settle next.1 record expected value next.2, some next.2)

def open_ (path : Text) (world : World) (refusal : Option Text) : World :=
  match load path world.disk refusal with
  | .ok state => { world with live := some state }
  | .error _ => { world with live := none }

inductive Op where
  | open_ (refusal : Option Text)
  | write (record : Text) (expected : UInt64) (value : Text) (now : WallStamp) (fate : Fate)

def answer (scratch : Text) (world : World) : Op → Answer
  | .open_ _ => none
  | .write record expected value now fate =>
    match world.live with
    | none => none
    | some state => (write scratch world state record expected value now fate).2

def act (path scratch : Text) (world : World) : Op → World
  | .open_ refusal => open_ path world refusal
  | .write record expected value now fate =>
    match world.live with
    | none => world
    | some state => (write scratch world state record expected value now fate).1

def start (disk : Disk) : World := ⟨disk, none, [], []⟩

def Step (path scratch : Text) (world : World) (op : Op) (next : World) : Prop :=
  act path scratch world op = next

end World

end LogicalWorks.Cas
