import LogicalWorks.Lib.Checks
import LogicalWorks.Journal.Scan
import LogicalWorks.Journal.Carry

/-! The file journal: opening a file, appending to it, and continuing it into a successor.
The device answers every request, and one handle's requests are answered one at a time. -/
namespace LogicalWorks.Journal

structure Disk where
  files : JournalPath → Option Bytes
  locked : JournalPath → Bool

namespace Disk

def file (disk : Disk) (path : JournalPath) : Bytes :=
  match disk.files path with
  | some file => file
  | none => []

def write (disk : Disk) (path : JournalPath) (file : Bytes) : Disk :=
  { disk with files := fun asked => if asked = path then some file else disk.files asked }

/-- Open with `create(true)`: an absent file comes into being empty. -/
def create (disk : Disk) (path : JournalPath) : Disk :=
  disk.write path (disk.file path)

def lock (disk : Disk) (path : JournalPath) : Disk :=
  { disk with locked := fun asked => if asked = path then true else disk.locked asked }

/-- What the kernel does when a handle closes or its process dies. -/
def release (disk : Disk) (path : JournalPath) : Disk :=
  { disk with locked := fun asked => if asked = path then false else disk.locked asked }

def releaseAll (disk : Disk) : Disk := { disk with locked := fun _ => false }

end Disk

inductive OpenKind where
  | plain
  | stalled
  | continuing (policy : ContinuationPolicy)
  deriving DecidableEq, Repr

def OpenKind.continues : OpenKind → Bool
  | .continuing _ => true
  | .plain | .stalled => false

def OpenKind.policy : OpenKind → ContinuationPolicy
  | .continuing policy => policy
  | .plain | .stalled => .declared

/-- A handle on a journal file.  `checkpoint` is the seal the file continues from, and
`ownSeal` the one it closes itself with. -/
structure FileJournal where
  path : JournalPath
  poisoned : Bool
  committed : List JournalEntry
  ladder : Index EffectKey EventKind
  outcomes : Index EffectKey (JournalPosition × EffectEvidence)
  diskLen : Nat
  position : JournalPosition
  tornTailRepaired : Bool
  continuing : Bool
  continuation : ContinuationPolicy
  checkpoint : Option Continuation
  ownSeal : Option Continuation
  chainFrom : JournalPosition
  base : JournalPosition
  folded : List SettledAttempt
  sealedBy : Option JournalPath
  pause : Option SealPause

structure Handle where
  disk : Disk
  journal : FileJournal

/-- Whether `successor` starts with a whole frame that chains from the position the seal
names.  A buffer the file ends inside of keeps its zeros. -/
def successorIsComplete (wire : Wire) (successor : Option Bytes) (ownSeal : Continuation) :
    Bool :=
  match successor with
  | none => false
  | some file =>
    match readPrefix file with
    | .eof | .torn => false
    | .full =>
      let declared := declaredLength (Bytes.fill lengthBytes file)
      if isPossibleLength declared maxFrameBytes then
        let behind := file.drop lengthBytes
        let payload := Bytes.fill declared behind
        let head := Digest.fromBytes (behind.drop declared)
        match wire.fromPayload payload with
        | some (.ok carried) =>
          carried.predecessor = ownSeal.predecessor &&
            wire.chainOverBytes ownSeal.predecessor.head payload = head
        | some (.error _) | none => false
      else false

def superseding (wire : Wire) (disk : Disk) (path : JournalPath) (ownSeal : Option Continuation) :
    Option JournalPath :=
  match ownSeal with
  | some ownSeal =>
    if successorIsComplete wire (disk.files (successorPath path)) ownSeal then
      some (successorPath path)
    else none
  | none => none

def repairTail (wire : Wire) (file : Bytes) (scanned : Scanned) :
    Except JournalError (Nat × Bool) :=
  match scanned.stop with
  | .complete length => .ok (length, false)
  | .torn offset => .ok (offset, true)
  | .ambiguousTail offset => do
      let offset ← resolveAmbiguousTail wire file offset scanned.tail scanned.entries.length
      return (offset, true)

def rungs (events : List EffectEvent) : List (EffectKey × EventKind) :=
  events.map fun event => (event.key, event.kind)

def JournalEntry.outcome (entry : JournalEntry) :
    Option (EffectKey × JournalPosition × EffectEvidence) :=
  match entry.event with
  | .outcomeObserved key evidence => some (key, entry.position, evidence)
  | _ => none

def Continuation.heldRungs (checkpoint : Continuation) : List (EffectKey × EventKind) :=
  (checkpoint.unresolved.filterMap fun held => held.rung.map fun rung => (held.key, rung)) ++
    checkpoint.settled.filterMap fun held => held.rung.map fun rung => (held.key, rung)

def heldRungs : Option Continuation → List (EffectKey × EventKind)
  | some checkpoint => checkpoint.heldRungs
  | none => []

def foldedOf : Option Continuation → List SettledAttempt
  | some checkpoint => checkpoint.settled
  | none => []

def Wire.baseOf (wire : Wire) : Option Continuation → JournalPosition
  | some checkpoint => checkpoint.predecessor
  | none => wire.genesis

def FileJournal.ofScanned (wire : Wire) (path : JournalPath) (kind : OpenKind)
    (scanned : Scanned) (ackedLen : Nat) (tornTailRepaired : Bool) : FileJournal where
  path
  poisoned := false
  committed := scanned.entries
  ladder := (Index.empty.insertAll (rungs (scanned.entries.map JournalEntry.event))).insertAll
    (heldRungs scanned.carried)
  outcomes := Index.empty.insertAll (scanned.entries.filterMap JournalEntry.outcome)
  diskLen := ackedLen
  position := scanned.tail
  tornTailRepaired
  continuing := kind.continues
  continuation := kind.policy
  checkpoint := scanned.carried
  ownSeal := scanned.ownSeal
  chainFrom := scanned.chainFrom
  base := wire.baseOf scanned.carried
  folded := foldedOf scanned.carried
  sealedBy := none
  pause := none

def openImpl (wire : Wire) (disk : Disk) (path : JournalPath) (kind : OpenKind) :
    Except JournalError FileJournal × Disk :=
  match ambiguousBase path with
  | some number => (.error (.capacityExceeded .generation maxGenerationName number), disk)
  | none =>
    let disk := disk.create path
    let file := disk.file path
    if disk.locked path then (.error (.locked path), disk)
    else if maxJournalBytes < file.length then
      (.error (.capacityExceeded .bytes maxJournalBytes file.length), disk)
    else
      match scan wire file maxJournalEvents with
      | .error cause => (.error cause, disk)
      | .ok scanned =>
        match superseding wire disk path scanned.ownSeal with
        | some next => (.error (.superseded next), disk)
        | none =>
          match repairTail wire file scanned with
          | .error cause => (.error cause, disk)
          | .ok (ackedLen, repaired) =>
            (.ok (.ofScanned wire path kind scanned ackedLen repaired),
              (disk.write path (file.take ackedLen)).lock path)

def maxGenerationWalk : Nat := 4096

def openWalk (wire : Wire) : Nat → Disk → JournalPath → Except JournalError FileJournal × Disk
  | 0, disk, here => (.error (.superseded (successorPath here)), disk)
  | generations + 1, disk, here =>
    match openImpl wire disk here (.continuing .declared) with
    | (.error (.superseded next), disk) => openWalk wire generations disk next
    | other => other

def openActive (wire : Wire) (disk : Disk) (path : JournalPath) :
    Except JournalError FileJournal × Disk :=
  openWalk wire maxGenerationWalk disk path

namespace FileJournal

def events (journal : FileJournal) : List EffectEvent :=
  journal.committed.map JournalEntry.event

def recover (journal : FileJournal) : Recovered :=
  recoverContinued journal.checkpoint journal.events

def generation (journal : FileJournal) : Nat := generationOf journal.path

def carried (journal : FileJournal) : List SettledAttempt × List UnresolvedAttempt :=
  journal.recover.carried

def refuseSealed (journal : FileJournal) : Except JournalError Unit :=
  match journal.sealedBy with
  | some next => .error (.superseded next)
  | none => .ok ()

def refuseWalked (journal : FileJournal) (event : EffectEvent) : Except JournalError Unit :=
  if (journal.ladder.get event.key).isSome then .ok ()
  else
    match journal.folded.find? fun entry => entry.alreadyWalked event.key with
    | some entry => .error (.attemptAlreadyWalked event.key entry.attempt)
    | none => .ok ()

def checkAppendOrder (expectedTail actual : JournalPosition) (event : EffectEvent)
    (last : Option EventKind) : Except JournalError Unit := do
  require (expectedTail = actual) (.tailMismatch expectedTail actual)
  require (nextAllowedOf last = some event.kind)
    (.outOfOrder event.key (nextAllowedOf last) event.kind)

def boundEvents (journal : FileJournal) (additional : Nat) : Except JournalError Unit :=
  require (journal.committed.length + additional ≤ maxJournalEvents)
    (.capacityExceeded .events maxJournalEvents (journal.committed.length + additional))

def boundBytes (journal : FileJournal) (staged : Nat) : Except JournalError Unit :=
  require (journal.diskLen + staged ≤ maxJournalBytes)
    (.capacityExceeded .bytes maxJournalBytes (journal.diskLen + staged))

def frame (wire : Wire) (event : EffectEvent) (start : JournalPosition) :
    Except JournalError (JournalPosition × Bytes) :=
  match checkedSucc start.sequence with
  | none => .error .exhausted
  | some sequence => do
      let (framed, head) ← frameRecord event start.head maxFrameBytes
        (fun event => match wire.eventToBytes event with
          | some archived => .ok archived
          | none => .error .encoding)
        (fun _ previous archived => wire.chainOverBytes previous archived)
        (fun _ => .storage "the event exceeds this journal's frame bound")
      return (⟨sequence, head⟩, framed)

def accept (journal : FileJournal) (event : EffectEvent) (position : JournalPosition)
    (frameLen : Nat) : FileJournal :=
  { journal with
    committed := journal.committed ++ [⟨position, event⟩]
    position
    ladder := journal.ladder.insert event.key event.kind
    outcomes := match event with
      | .outcomeObserved key evidence => journal.outcomes.insert key (position, evidence)
      | _ => journal.outcomes
    diskLen := journal.diskLen + frameLen }

end FileJournal

namespace Handle

def file (handle : Handle) : Bytes := handle.disk.file handle.journal.path

def staleFile : String :=
  "the journal file moved under this controller; reopen before appending"

def poisonedHandle : String :=
  "a previous append failed while writing; the file may hold " ++
    "unacknowledged bytes, reopen to replay"

def poisonedOwner : String :=
  "a previous append's outcome is unknown; reopen the store to replay the truth"

def fence (handle : Handle) : Except JournalError Unit := do
  handle.journal.refuseSealed
  require (handle.journal.poisoned = false) (.storage poisonedHandle)
  require (handle.file.length = handle.journal.diskLen) (.storage staleFile)

def writeAndSync (handle : Handle) (frames : Bytes) : Except JournalError Unit × Handle :=
  if handle.journal.poisoned then
    (.error (.storage poisonedOwner), handle)
  else if handle.file.length ≠ handle.journal.diskLen then
    (.error (.outcomeUnknown staleFile),
      { handle with journal := { handle.journal with poisoned := true } })
  else
    (.ok (), { handle with
      disk := handle.disk.write handle.journal.path (handle.file ++ frames) })

def prepareAppend (wire : Wire) (handle : Handle) (expectedTail : JournalPosition)
    (event : EffectEvent) : Except JournalError (JournalPosition × Bytes) := do
  let journal := handle.journal
  journal.refuseSealed
  FileJournal.checkAppendOrder expectedTail journal.position event (journal.ladder.get event.key)
  journal.refuseWalked event
  handle.fence
  journal.boundEvents 1
  let (position, frame) ← FileJournal.frame wire event journal.position
  journal.boundBytes frame.length
  return (position, frame)

def compareAndAppend (wire : Wire) (handle : Handle) (expectedTail : JournalPosition)
    (event : EffectEvent) : Except JournalError DurableAck × Handle :=
  match handle.prepareAppend wire expectedTail event with
  | .error cause => (.error cause, handle)
  | .ok (position, frame) =>
    match handle.writeAndSync frame with
    | (.error cause, handle) => (.error cause, handle)
    | (.ok (), handle) =>
      (.ok ⟨position, .processCrash⟩,
        { handle with journal := handle.journal.accept event position frame.length })

end Handle

structure Staging where
  position : JournalPosition
  staged : Index EffectKey EventKind
  frames : Bytes
  pending : List (JournalPosition × Nat)

namespace Handle

def stageEvent (wire : Wire) (journal : FileJournal) (staging : Staging) (event : EffectEvent) :
    Except JournalError Staging := do
  let expected := nextAllowedOf
    ((staging.staged.get event.key).or (journal.ladder.get event.key))
  require (expected = some event.kind) (.outOfOrder event.key expected event.kind)
  let (position, framed) ← FileJournal.frame wire event staging.position
  journal.boundBytes (staging.frames.length + framed.length)
  return {
    position
    staged := staging.staged.insert event.key event.kind
    frames := staging.frames ++ framed
    pending := staging.pending ++ [(position, framed.length)] }

def stageAll (wire : Wire) (journal : FileJournal) (staging : Staging) :
    List EffectEvent → Except JournalError Staging
  | [] => .ok staging
  | event :: rest => do
      let staging ← stageEvent wire journal staging event
      stageAll wire journal staging rest

def prepareBatch (wire : Wire) (handle : Handle) (events : List EffectEvent) :
    Except JournalError Staging := do
  handle.journal.boundEvents events.length
  stageAll wire handle.journal ⟨handle.journal.position, Index.empty, [], []⟩ events

def acceptAll (journal : FileJournal) :
    List (EffectEvent × JournalPosition × Nat) → FileJournal
  | [] => journal
  | (event, position, frameLen) :: rest =>
    acceptAll (journal.accept event position frameLen) rest

def compareAndAppendAll (wire : Wire) (handle : Handle) (events : List EffectEvent) :
    Except JournalError (List DurableAck) × Handle :=
  match handle.fence with
  | .error cause => (.error cause, handle)
  | .ok () =>
    if events.isEmpty then (.ok [], handle)
    else
      match handle.prepareBatch wire events with
      | .error cause => (.error cause, handle)
      | .ok staging =>
        match handle.writeAndSync staging.frames with
        | (.error cause, handle) => (.error cause, handle)
        | (.ok (), handle) =>
          (.ok (staging.pending.map fun entry => ⟨entry.1, .processCrash⟩),
            { handle with
              journal := acceptAll handle.journal (events.zip staging.pending) })

def framePayload (wire : Wire) (handle : Handle) (payload : Bytes) (start : JournalPosition) :
    Except JournalError (JournalPosition × Bytes) := do
  handle.fence
  match checkedSucc start.sequence with
  | none => .error .exhausted
  | some sequence => do
      let (framed, head) ← frameRecord payload start.head maxFrameBytes Except.ok
        (fun _ previous archived => wire.chainOverBytes previous archived)
        (fun _ => .storage "the sealed checkpoint exceeds this journal's frame bound")
      return (⟨sequence, head⟩, framed)

def sealFrame (wire : Wire) (handle : Handle) : Except JournalError (Continuation × Bytes) := do
  let journal := handle.journal
  let (settled, unresolved) := journal.carried
  let checkpoint ← Continuation.new (journal.generation + 1) journal.position settled unresolved
  let payload ← wire.toPayload checkpoint
  let (_, framed) ← handle.framePayload wire payload journal.position
  return (checkpoint, framed)

end Handle

inductive SealOutcome where
  | sealed (bytes : Nat)
  | paused (boundary : SealPause)
  deriving DecidableEq, Repr

/-- The seal as one ordered step: the frame into this file, the same bytes into the
successor, the flushes, and an armed stop between each two of them. -/
def sealOnOwner (disk : Disk) (path : JournalPath) (frame : Bytes) (successor : JournalPath)
    (pause : Option SealPause) : SealOutcome × Disk :=
  let disk := disk.write path (disk.file path ++ frame)
  if pause = some .afterSealWrite then (.paused .afterSealWrite, disk)
  else
    let disk := disk.write successor frame
    match pause with
    | some boundary => (.paused boundary, disk)
    | none => (.sealed frame.length, disk)

def Handle.continueAsFile (wire : Wire) (handle : Handle) :
    Except JournalError (Option FileJournal) × Handle :=
  let journal := handle.journal
  if journal.continuing = false then (.ok none, handle)
  else
    match journal.sealedBy with
    | some next => (.error (.superseded next), handle)
    | none =>
      let successor := successorPath journal.path
      match handle.sealFrame wire with
      | .error cause => (.error cause, handle)
      | .ok (_, framed) =>
        let taken : FileJournal := { journal with pause := none }
        match sealOnOwner handle.disk journal.path framed successor journal.pause with
        | (.sealed bytes, disk) =>
          let closed : FileJournal :=
            { taken with
              diskLen := journal.diskLen + bytes
              sealedBy := some successor }
          match openImpl wire disk successor (.continuing journal.continuation) with
          | (.error cause, disk) => (.error cause, ⟨disk, closed⟩)
          | (.ok opened, disk) => (.ok (some opened), ⟨disk, closed⟩)
        | (.paused boundary, disk) =>
          (.error (.continuationPaused boundary),
            ⟨disk, { taken with sealedBy := some successor }⟩)

end LogicalWorks.Journal
