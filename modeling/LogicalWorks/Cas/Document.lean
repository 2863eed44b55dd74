import LogicalWorks.Session.Value
import LogicalWorks.Lib.Checks
import LogicalWorks.Lib.Ordered
import Mathlib.Data.Char
import Mathlib.Data.List.Lex

/-! What a record store holds, and the document it is persisted as. -/
namespace LogicalWorks.Cas
open Session (Text)

def u64Max : UInt64 := 18446744073709551615

def noVersion : UInt64 := 0

def maxConflicts : Nat := 128

inductive Number where
  | natural (value : UInt64)
  | other (text : Text)
  deriving DecidableEq, Repr

/-- A document as the JSON library reads it, the members of an object in key order. -/
inductive Json where
  | null
  | bool (flag : Bool)
  | number (number : Number)
  | string (text : Text)
  | array (items : List Json)
  | object (members : List (Text × Json))

namespace Json

def asU64 : Json → Option UInt64
  | .number (.natural value) => some value
  | _ => none

def asStr : Json → Option Text
  | .string text => some text
  | _ => none

def asArray : Json → Option (List Json)
  | .array items => some items
  | _ => none

def asObject : Json → Option (List (Text × Json))
  | .object members => some members
  | _ => none

end Json

def member (members : List (Text × Json)) (key : Text) : Option Json :=
  (members.find? fun row => decide (row.1 = key)).map Prod.snd

inductive CasError where
  | conflict (record : Text) (expected found : UInt64)
  | corrupt (cause : Text)
  | io (cause : Text)
  deriving DecidableEq, Repr

abbrev WallStamp := Text

def unixEpoch : WallStamp := "SystemTime { tv_sec: 0, tv_nsec: 0 }".toList

structure ConflictEntry where
  record : Text
  expected : UInt64
  found : UInt64
  stamped : WallStamp
  deriving DecidableEq, Repr

structure Record where
  version : UInt64
  value : Text
  version_pos : noVersion < version
  deriving DecidableEq

structure StoreState where
  records : Ordered Text Record
  conflicts : List ConflictEntry
  evicted : UInt64

namespace StoreState

def empty : StoreState := ⟨.empty, [], 0⟩

def version (state : StoreState) (record : Text) : UInt64 :=
  match state.records.get record with
  | some existing => existing.version
  | none => noVersion

def unstamped (state : StoreState) : StoreState :=
  { state with conflicts := state.conflicts.map fun entry => { entry with stamped := unixEpoch } }

end StoreState

def cas : Text := "cas".toList
def casTag : Text := "lgwks-bot-cas/1".toList
def recordsKey : Text := "records".toList
def conflictsKey : Text := "conflicts".toList
def evictedKey : Text := "evicted".toList
def versionKey : Text := "version".toList
def valueKey : Text := "value".toList
def recordKey : Text := "record".toList
def expectedKey : Text := "expected".toList
def foundKey : Text := "found".toList
def stampedKey : Text := "stamped".toList

section Decode

def orCorrupt {α : Type} (found : Option α) (cause : Text) : Except CasError α :=
  match found with
  | some value => .ok value
  | none => .error (.corrupt cause)

def positive (found : Option UInt64) : Option { version : UInt64 // noVersion < version } :=
  match found with
  | some version => if hpos : noVersion < version then some ⟨version, hpos⟩ else none
  | none => none

def decodeRecord (row : Text × Json) : Except CasError (Text × Record) := do
  let entry ← orCorrupt row.2.asObject ("record ".toList ++ row.1 ++ " is not an object".toList)
  let version ← orCorrupt (positive ((member entry versionKey).bind Json.asU64))
    ("record ".toList ++ row.1 ++ " has no positive version".toList)
  let content ← orCorrupt ((member entry valueKey).bind Json.asStr)
    ("record ".toList ++ row.1 ++ " has no string value".toList)
  pure (row.1, ⟨version.val, content, version.property⟩)

def lect (entry : List (Text × Json)) (key : Text) : Except CasError Text :=
  orCorrupt ((member entry key).bind Json.asStr) ("a conflict entry has no string ".toList ++ key)

def digits (entry : List (Text × Json)) (key : Text) : Except CasError UInt64 :=
  orCorrupt ((member entry key).bind Json.asU64) ("a conflict entry has no numeric ".toList ++ key)

def decodeConflict (item : Json) : Except CasError ConflictEntry := do
  let entry ← orCorrupt item.asObject "a conflict entry is not an object".toList
  let record ← lect entry recordKey
  let expected ← digits entry expectedKey
  let found ← digits entry foundKey
  pure ⟨record, expected, found, unixEpoch⟩

/-- Read the store's document back; a section that is missing is read as empty. -/
def decode (document : Json) : Except CasError StoreState := do
  let object ← orCorrupt document.asObject "the top level is not an object".toList
  require ((member object cas).bind Json.asStr = some casTag)
    (.corrupt "missing or unknown document tag".toList)
  let records ← (((member object recordsKey).bind Json.asObject).getD []).mapM decodeRecord
  let conflicts ← (((member object conflictsKey).bind Json.asArray).getD []).mapM decodeConflict
  let evicted ← orCorrupt ((member object evictedKey).bind Json.asU64)
    "the document has no eviction count".toList
  pure ⟨.ofList records, conflicts, evicted⟩

end Decode

section Persist

def recordDocument (record : Record) : Json :=
  .object [(valueKey, .string record.value), (versionKey, .number (.natural record.version))]

def conflictDocument (entry : ConflictEntry) : Json :=
  .object [(expectedKey, .number (.natural entry.expected)),
    (foundKey, .number (.natural entry.found)), (recordKey, .string entry.record),
    (stampedKey, .string entry.stamped)]

def document (state : StoreState) : Json :=
  .object [(cas, .string casTag), (conflictsKey, .array (state.conflicts.map conflictDocument)),
    (evictedKey, .number (.natural state.evicted)),
    (recordsKey, .object (state.records.rows.map fun row => (row.1, recordDocument row.2)))]

end Persist

end LogicalWorks.Cas

/-! Which documents are read as a store, and that a persisted state is read back. -/
namespace LogicalWorks.Cas
open Session (Text)

def RecordForm (item : Json) : Prop :=
  ∃ entry, item.asObject = some entry ∧
    (∃ version, (member entry versionKey).bind Json.asU64 = some version ∧ noVersion < version) ∧
    ∃ content, (member entry valueKey).bind Json.asStr = some content

def ConflictForm (item : Json) : Prop :=
  ∃ entry, item.asObject = some entry ∧
    (∃ record, (member entry recordKey).bind Json.asStr = some record) ∧
    (∃ expected, (member entry expectedKey).bind Json.asU64 = some expected) ∧
    ∃ found, (member entry foundKey).bind Json.asU64 = some found

def Loose (document : Json) : Prop :=
  ∃ object, document.asObject = some object ∧
    (member object cas).bind Json.asStr = some casTag ∧
    (∀ row ∈ ((member object recordsKey).bind Json.asObject).getD [], RecordForm row.2) ∧
    (∀ item ∈ ((member object conflictsKey).bind Json.asArray).getD [], ConflictForm item) ∧
    ∃ evicted, (member object evictedKey).bind Json.asU64 = some evicted

def Shaped (found : Json) : Prop := ∃ state, found = document state

section Decode

variable {α : Type} {found : Option α} {value : α} {cause : Text}

@[simp] theorem orCorrupt_eq_ok : orCorrupt found cause = .ok value ↔ found = some value := by
  cases found with
  | none => simp [orCorrupt]
  | some held => simp [orCorrupt]

theorem positive_eq_some {found : Option UInt64}
    {version : { version : UInt64 // noVersion < version }} :
    positive found = some version ↔ found = some version.val := by
  cases found with
  | none => simp [positive]
  | some held =>
    unfold positive
    dsimp only
    split
    · simp [Subtype.ext_iff]
    · rename_i hzero
      refine ⟨nofun, fun heq => ?_⟩
      rw [Option.some.inj heq] at hzero
      exact absurd version.property hzero

theorem decodeRecord_isOk (row : Text × Json) :
    (∃ decoded, decodeRecord row = .ok decoded) ↔ RecordForm row.2 := by
  unfold decodeRecord RecordForm
  simp only [bind_eq_ok, orCorrupt_eq_ok, pure_eq_ok, positive_eq_some]
  constructor
  · rintro ⟨-, entry, hentry, version, hversion, content, hcontent, -⟩
    exact ⟨entry, hentry, ⟨version.val, hversion, version.property⟩, content, hcontent⟩
  · rintro ⟨entry, hentry, ⟨version, hversion, hpos⟩, content, hcontent⟩
    exact ⟨_, entry, hentry, ⟨version, hpos⟩, hversion, content, hcontent, rfl⟩

theorem decodeConflict_isOk (item : Json) :
    (∃ decoded, decodeConflict item = .ok decoded) ↔ ConflictForm item := by
  unfold decodeConflict ConflictForm lect digits
  simp only [bind_eq_ok, orCorrupt_eq_ok, pure_eq_ok]
  constructor
  · rintro ⟨-, entry, hentry, record, hrecord, expected, hexpected, found, hfound, -⟩
    exact ⟨entry, hentry, ⟨record, hrecord⟩, ⟨expected, hexpected⟩, found, hfound⟩
  · rintro ⟨entry, hentry, ⟨record, hrecord⟩, ⟨expected, hexpected⟩, found, hfound⟩
    exact ⟨_, entry, hentry, record, hrecord, expected, hexpected, found, hfound, rfl⟩

theorem mapM_isOk {ε β γ : Type} {items : List β} {f : β → Except ε γ} {Form : β → Prop}
    (h : ∀ item, (∃ decoded, f item = .ok decoded) ↔ Form item) :
    (∃ decoded, items.mapM f = .ok decoded) ↔ ∀ item ∈ items, Form item := by
  constructor
  · rintro ⟨decoded, hdecoded⟩ item hmem
    rw [mapM_eq_ok] at hdecoded
    obtain ⟨index, hindex, rfl⟩ := List.mem_iff_getElem.mp hmem
    have hlength := hdecoded.length_eq
    exact (h _).mp ⟨_, hdecoded.get hindex (hlength ▸ hindex)⟩
  · exact fun hform => exists_mapM fun item hmem => (h item).mpr (hform item hmem)

theorem decode_isOk (found : Json) : (∃ state, decode found = .ok state) ↔ Loose found := by
  unfold decode Loose
  simp only [bind_eq_ok, orCorrupt_eq_ok, pure_eq_ok, require_eq_ok, ← mapM_isOk decodeConflict_isOk]
  have hrecords := fun rows => @mapM_isOk CasError _ _ rows decodeRecord
    (fun row => RecordForm row.2) decodeRecord_isOk
  simp only [← hrecords]
  constructor
  · rintro ⟨-, object, hobject, -, htag, records, hrecords, conflicts, hconflicts, evicted,
      hevicted, -⟩
    exact ⟨object, hobject, htag, ⟨records, hrecords⟩, ⟨conflicts, hconflicts⟩, evicted, hevicted⟩
  · rintro ⟨object, hobject, htag, ⟨records, hrecords⟩, ⟨conflicts, hconflicts⟩, evicted, hevicted⟩
    exact ⟨_, object, hobject, (), htag, records, hrecords, conflicts, hconflicts, evicted, hevicted,
      rfl⟩

end Decode

theorem decodeRecord_recordDocument (name : Text) (record : Record) :
    decodeRecord (name, recordDocument record) = .ok (name, record) := by
  unfold decodeRecord
  simp only [bind_eq_ok, orCorrupt_eq_ok, pure_eq_ok, positive_eq_some]
  exact ⟨_, rfl, ⟨record.version, record.version_pos⟩, rfl, record.value, rfl, rfl⟩

theorem decodeConflict_conflictDocument (entry : ConflictEntry) :
    decodeConflict (conflictDocument entry) = .ok { entry with stamped := unixEpoch } := by
  unfold decodeConflict lect digits
  simp only [bind_eq_ok, orCorrupt_eq_ok, pure_eq_ok]
  exact ⟨_, rfl, entry.record, rfl, entry.expected, rfl, entry.found, rfl, rfl⟩

theorem mapM_map_eq_ok {ε β γ δ : Type} {encode : β → γ} {f : γ → Except ε δ} {g : β → δ}
    (h : ∀ item, f (encode item) = .ok (g item)) (items : List β) :
    (items.map encode).mapM f = .ok (items.map g) := by
  rw [mapM_eq_ok, List.forall₂_map_left_iff, List.forall₂_map_right_iff, List.forall₂_same]
  exact fun item _ => h item

theorem decode_document (state : StoreState) : decode (document state) = .ok state.unstamped := by
  have hrecords := mapM_map_eq_ok (fun row : Text × Record =>
    decodeRecord_recordDocument row.1 row.2) state.records.rows
  have hconflicts := mapM_map_eq_ok decodeConflict_conflictDocument state.conflicts
  unfold decode document
  simp only [bind_eq_ok, orCorrupt_eq_ok, pure_eq_ok, require_eq_ok]
  refine ⟨_, rfl, (), rfl, _, hrecords, _, hconflicts, state.evicted, rfl, ?_⟩
  have hrows : state.records.rows.map (fun row => (row.1, row.2)) = state.records.rows :=
    List.map_id _
  rw [hrows, Ordered.ofList_rows]
  rfl

end LogicalWorks.Cas
