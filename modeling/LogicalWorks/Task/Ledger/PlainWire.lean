import LogicalWorks.Journal.PlainWire
import LogicalWorks.Task.Ledger.Charge

/-! The ledger on an archive format that behaves as the real one is documented to, plain
enough to be evaluated. -/
namespace LogicalWorks.Task.Ledger.PlainWire

open Journal StreamCodec

def counter : StreamCodec UInt64 :=
  number.map UInt64.ofNat UInt64.toNat (fun _ => UInt64.ofNat_toNat)

def ticket : StreamCodec (Option Bytes) :=
  (list bytes).map List.head? Option.toList (fun value => by cases value <;> rfl)

def entry : StreamCodec Entry :=
  (number.pair (text.pair (counter.pair (counter.pair (counter.pair ticket))))).map
    (fun parts => ⟨parts.1, parts.2.1, parts.2.2.1, parts.2.2.2.1, parts.2.2.2.2.1,
      parts.2.2.2.2.2⟩)
    (fun value => (value.run, value.tenant, value.attempts, value.spend, value.epoch,
      value.applied))
    (fun _ => rfl)

def plain : Wire where
  hash := Journal.PlainWire.checksum 1
  entryToBytes value := some (entry.encode value)
  entryFromBytes := entry.decodeAll

theorem lawful : plain.Lawful where
  entry_roundTrip := by
    intro value encoded h
    cases h
    exact entry.decodeAll_encode value

def wide : Ceilings := ⟨1000000, 1000000⟩

def attempt (run : RunId) (tenant : String) : Charge := ⟨tenant, run, none, 1⟩

end LogicalWorks.Task.Ledger.PlainWire
