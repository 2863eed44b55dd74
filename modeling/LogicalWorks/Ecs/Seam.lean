import LogicalWorks.Lib.Call
import LogicalWorks.Ecs.Entry
import Mathlib.Data.List.Induction

/-! The journal a bot writes its effects through, as the seam the bot sees, and what an
adapter that keeps the ladder does with the events it holds. -/
namespace LogicalWorks.Ecs
open Journal (EffectKey EffectEvidence EffectEvent EventKind JournalPosition JournalEntry
  DurabilityPromise DurableAck nextAllowedOf)

def meets : DurabilityPromise → DurabilityPromise → Bool
  | _, .ephemeral => true
  | .processCrash, .processCrash | .powerLoss, .processCrash => true
  | .powerLoss, .powerLoss => true
  | .ephemeral, _ => false
  | .processCrash, .powerLoss => false

def survivesProcessCrash : DurabilityPromise → Bool
  | .processCrash | .powerLoss => true
  | .ephemeral => false

class EffectJournal (J : Type) where
  durability : J → DurabilityPromise
  tail : J → JournalPosition
  committed : Call J JournalError (List EffectEvent)
  committedEntry : JournalPosition → Call J JournalError (Option JournalEntry)
  outcomeAt : EffectKey → Call J JournalError (Option (JournalPosition × EffectEvidence))
  compareAndAppend : JournalPosition → EffectEvent → Call J JournalError DurableAck
  compareAndAppendAsync : JournalPosition → EffectEvent → Call J JournalError DurableAck
  confirmOutcome : EffectKey → EffectEvidence → JournalPosition → DurabilityPromise →
    Call J JournalError DurableAck
  admitExternalHandoff : Call J JournalError DurabilityPromise
  reserveHandoffCapacity : Nat → Call J JournalError Unit
  watermarkIsDue : Call J JournalError Bool
  continueAsNew : Call J JournalError (Option J)

def rung (events : List EffectEvent) (key : EffectKey) : Option EventKind :=
  events.foldl (fun last event => if event.key = key then some event.kind else last) none

def Follows (events : List EffectEvent) (event : EffectEvent) : Prop :=
  nextAllowedOf (rung events event.key) = some event.kind

instance (events : List EffectEvent) (event : EffectEvent) : Decidable (Follows events event) :=
  inferInstanceAs (Decidable (nextAllowedOf (rung events event.key) = some event.kind))

@[simp] theorem rung_nil (key : EffectKey) : rung [] key = none := rfl

end LogicalWorks.Ecs

/-! The in-memory journal.  Its ladder and its outcomes are read off the events it holds;
a position is how many there are up to it, with the hash chained over them. -/
namespace LogicalWorks.Ecs
open Journal (EffectKey EffectEvidence EffectEvent EventKind JournalPosition JournalEntry
  DurableAck DurabilityPromise Digest maxJournalEvents maxJournalBytes nextAllowedOf)

/-- The archive length of an event, and the hash chained over it. -/
class EventWire where
  payloadLen : EffectEvent → Option Nat
  genesis : Digest
  chain : Digest → EffectEvent → Digest

structure MemoryJournal where
  events : List EffectEvent
  bounded : events.length ≤ maxJournalEvents

namespace MemoryJournal

variable [EventWire]

def empty : MemoryJournal := ⟨[], Nat.zero_le _⟩

def positionAfter (journal : MemoryJournal) (count : Nat) : JournalPosition :=
  ⟨UInt64.ofNat count, (journal.events.take count).foldl EventWire.chain EventWire.genesis⟩

def tail (journal : MemoryJournal) : JournalPosition :=
  journal.positionAfter journal.events.length

def committedBytes (journal : MemoryJournal) : Nat :=
  (journal.events.map fun event => (EventWire.payloadLen event).getD 0 + 36).sum

def entryAt (journal : MemoryJournal) (position : JournalPosition) : Option JournalEntry :=
  if position.sequence.toNat = 0 then none
  else
    ((journal.events[position.sequence.toNat - 1]?).map fun event =>
      ⟨journal.positionAfter position.sequence.toNat, event⟩).filter fun entry =>
        entry.position = position

def outcomeOf (key : EffectKey) : EffectEvent → Option EffectEvidence
  | .outcomeObserved held evidence => if held = key then some evidence else none
  | _ => none

def lastOutcome (key : EffectKey) : List EffectEvent → Option (Nat × EffectEvidence)
  | [] => none
  | event :: rest =>
    match lastOutcome key rest with
    | some (count, evidence) => some (count + 1, evidence)
    | none => (outcomeOf key event).map fun evidence => (1, evidence)

def outcomeAt (journal : MemoryJournal) (key : EffectKey) :
    Option (JournalPosition × EffectEvidence) :=
  (lastOutcome key journal.events).map fun found => (journal.positionAfter found.1, found.2)

def compareAndAppend (expected : JournalPosition) (event : EffectEvent) :
    Call MemoryJournal JournalError DurableAck := fun journal =>
  if expected ≠ journal.tail then (.error (.refused (.tailMismatch expected journal.tail)), journal)
  else if Follows journal.events event then
    if hroom : journal.events.length + 1 ≤ maxJournalEvents then
      match EventWire.payloadLen event with
      | none => (.error (.refused .encoding), journal)
      | some payload =>
        let requested := journal.committedBytes + payload + 36
        if maxJournalBytes < requested then
          (.error (.refused (.capacityExceeded .bytes maxJournalBytes requested)), journal)
        else
          let next : MemoryJournal := ⟨journal.events ++ [event], by simpa using hroom⟩
          (.ok ⟨next.tail, .ephemeral⟩, next)
    else
      (.error (.refused (.capacityExceeded .events maxJournalEvents (journal.events.length + 1))),
        journal)
  else
    (.error (outOfOrder event.key (nextAllowedOf (rung journal.events event.key)) event.kind),
      journal)

instance : EffectJournal MemoryJournal where
  durability _ := .ephemeral
  tail := tail
  committed := Call.read events
  committedEntry position := Call.read fun journal => journal.entryAt position
  outcomeAt key := Call.read fun journal => journal.outcomeAt key
  compareAndAppend := compareAndAppend
  compareAndAppendAsync := compareAndAppend
  confirmOutcome _ _ _ required := Call.refuse (.receiptUnavailable required)
  admitExternalHandoff := Call.refuse (.promiseUnmet .processCrash .ephemeral)
  reserveHandoffCapacity rungs := Call.readOr fun journal =>
    if journal.events.length + rungs ≤ maxJournalEvents then .ok ()
    else .error (.refused (.capacityExceeded .events maxJournalEvents
      (journal.events.length + rungs)))
  watermarkIsDue := Call.read fun _ => false
  continueAsNew := Call.read fun _ => none

end MemoryJournal

end LogicalWorks.Ecs
