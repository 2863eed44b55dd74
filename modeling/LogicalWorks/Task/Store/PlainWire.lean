import LogicalWorks.Journal.PlainWire
import LogicalWorks.Task.Store.Append

/-! The run store on an archive format that behaves as the real one is documented to, plain
enough to be evaluated. -/
namespace LogicalWorks.Task.Store.PlainWire

open Journal Owner.Batch StreamCodec

def definition : StreamCodec StoredDefinition :=
  (text.pair (Journal.PlainWire.word.pair (bytes.pair (Journal.PlainWire.word.pair text)))).map
    (fun parts => ⟨parts.1, parts.2.1, parts.2.2.1, parts.2.2.2.1, parts.2.2.2.2⟩)
    (fun value => (value.name, value.revision, value.input, value.steps, value.codec))
    (fun _ => rfl)

def stored : StreamCodec Stored :=
  (number.pair (bytes.pair (text.pair (text.pair (definition.pair bytes))))).map
    (fun parts => ⟨parts.1, parts.2.1, parts.2.2.1, parts.2.2.2.1, parts.2.2.2.2.1,
      parts.2.2.2.2.2⟩)
    (fun value => (value.run, value.key, value.tenant, value.path, value.definition, value.value))
    (fun _ => rfl)

/-- A wire whose records hold no approval, under a digest that keeps the inputs of a run
apart. -/
def plain : Wire where
  hash := Journal.PlainWire.checksum 1
  storedToBytes value := some (stored.encode value)
  storedFromBytes := stored.decodeAll
  approvalFromBytes _ := none

theorem lawful : plain.Lawful where
  stored_roundTrip := by
    intro value encoded h
    cases h
    exact stored.decodeAll_encode value

def request (run : RunId) (tenant : String) (key : Nat) (value : Bytes) : Staged where
  record := ⟨run, (Journal.PlainWire.spell 0 key).bytes, tenant, "", ⟨"", 0, [], 0, ""⟩, value⟩
  key := Journal.PlainWire.spell 0 key
  record_key := rfl

def served : Handle.Served Fault := ⟨.none, false⟩

end LogicalWorks.Task.Store.PlainWire
