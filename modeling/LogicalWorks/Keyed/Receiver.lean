import LogicalWorks.Ecs.Entry
import LogicalWorks.Lib.Run

/-! One effect per caller key, on a receiver that keeps no idempotency key: the read-back's
schedule, and the open as the points it awaits at and what it does behind each answer.  A
duration and a clock reading are whole nanoseconds. -/
namespace LogicalWorks.Keyed
open Ecs (saturatingAdd durationMax)

/-- How many reads the read-back after a lost create answer makes at least. -/
def settleScans : Nat := 8

def firstSettleDelay : Nat := 250 * 10 ^ 6

def maxSettleDelay : Nat := 4 * 10 ^ 9

inductive CreateFailure where
  | nothingLanded
  | mayHaveLanded
  deriving DecidableEq, Repr

/-- What the open reads of an adapter besides its calls. -/
structure KeyedReceiver (E : Type) where
  createFailure : E → CreateFailure
  inFlightBound : Nat

inductive Settlement where
  | created
  | found
  | reconciled
  deriving DecidableEq, Repr

/-- Why an open did not settle on an effect. -/
inductive KeyedError (E : Type) where
  | unread (failure : E)
  | refused (failure : E)
  | indeterminate (lost : E) (unread : Option E)
  deriving DecidableEq, Repr

structure ReadBack where
  next : Nat
  made : Nat
  untilAt : Nat
  deriving DecidableEq, Repr

namespace ReadBack

def spent (schedule : ReadBack) (now : Nat) : Option Nat × ReadBack :=
  let made := min (schedule.made + 1) 255
  if settleScans ≤ made ∧ schedule.untilAt ≤ now then (none, { schedule with made := made })
  else
    (some schedule.next,
      { schedule with
        made := made
        next := min (min (schedule.next * 2) durationMax) maxSettleDelay })

end ReadBack

inductive Point (E : Type) where
  | reading (began : Nat)
  | fencing (wake : Nat)
  | rereading
  | creating (sent : Nat)
  | readingBack (lost : E) (unread : Option E) (schedule : ReadBack)
  | waiting (lost : E) (unread : Option E) (schedule : ReadBack) (wake : Nat)
  deriving DecidableEq, Repr

inductive Turn (H E : Type) where
  | awaits (point : Point E)
  | answers (result : Except (KeyedError E) (H × Settlement))

namespace Point

variable {H E : Type}

def opened (now : Nat) : Point E := .reading now

/-- Behind the first read: wait until no earlier create can still be in flight. -/
def fenced (receiver : KeyedReceiver E) (began now : Nat) : Point E :=
  let fence := saturatingAdd began receiver.inFlightBound - now
  if fence ≠ 0 then .fencing (saturatingAdd now fence) else .creating now

def readOn (lost : E) (unread : Option E) (schedule : ReadBack) (now : Nat) : Turn H E :=
  match schedule.spent now with
  | (some wait, left) => .awaits (.waiting lost unread left (saturatingAdd now wait))
  | (none, _) => .answers (.error (.indeterminate lost unread))

def afterFind (receiver : KeyedReceiver E) (now : Nat) (answer : Except E (Option H)) :
    Point E → Turn H E
  | .reading began =>
    match answer with
    | .error failure => .answers (.error (.unread failure))
    | .ok (some found) => .answers (.ok (found, .found))
    | .ok none => .awaits (fenced receiver began now)
  | .rereading =>
    match answer with
    | .error failure => .answers (.error (.unread failure))
    | .ok (some found) => .answers (.ok (found, .found))
    | .ok none => .awaits (.creating now)
  | .readingBack lost unread schedule =>
    match answer with
    | .ok (some found) => .answers (.ok (found, .reconciled))
    | .ok none => readOn lost unread schedule now
    | .error failure => readOn lost (some failure) schedule now
  | point => .awaits point

def afterCreate (receiver : KeyedReceiver E) (answer : Except E H) : Point E → Turn H E
  | .creating sent =>
    match answer with
    | .ok created => .answers (.ok (created, .created))
    | .error failure =>
      match receiver.createFailure failure with
      | .nothingLanded => .answers (.error (.refused failure))
      | .mayHaveLanded =>
        .awaits (.readingBack failure none
          ⟨firstSettleDelay, 0, saturatingAdd sent receiver.inFlightBound⟩)
  | point => .awaits point

def afterSleep : Point E → Point E
  | .fencing _ => .rereading
  | .waiting lost unread schedule _ => .readingBack lost unread schedule
  | point => point

def reads : Point E → Bool
  | .reading _ | .rereading | .readingBack _ _ _ => true
  | _ => false

def creates : Point E → Bool
  | .creating _ => true
  | _ => false

def wakeAt : Point E → Option Nat
  | .fencing wake | .waiting _ _ _ wake => some wake
  | _ => none

end Point

end LogicalWorks.Keyed

/-! The opens of one draft against its receiver: each run starts where the last one ended or
was killed, reads take any time and see the receiver as of some instant of it, and a create
that reached the receiver lands once within the in-flight bound of being sent, or never. -/
namespace LogicalWorks.Keyed
open Ecs (saturatingAdd durationMax)

structure Request (H : Type) where
  sent : Nat
  effect : H
  landing : Option Nat
  deriving DecidableEq, Repr

def Request.landedBy {H : Type} (request : Request H) (instant : Nat) : Bool :=
  request.landing.any fun landing => landing ≤ instant

/-- One run underway: the answer it has coming, how many creates it called, the request of
the last one, and whether one of them failed in a way that may have landed. -/
structure Opening (H E : Type) where
  point : Point E
  sampled : Option (Nat × Except E (Option H))
  creates : Nat
  request : Option (Request H)
  lost : Bool

structure Ended (H E : Type) where
  opening : Opening H E
  result : Option (Except (KeyedError E) (H × Settlement))

structure World (H E : Type) where
  clock : Nat
  requests : List (Request H)
  running : Option (Opening H E)
  ended : List (Ended H E)

inductive Event (H E : Type) where
  | advance (clock : Nat)
  | open
  | sample (answer : Except E (Option H))
  | found
  | woke
  | reach (effect : H) (landing : Option Nat)
  | created (answer : Except E H)
  | kill

variable {H E : Type}

namespace World

def new (clock : Nat) : World H E := ⟨clock, [], none, []⟩

def held (world : World H E) : List H :=
  (world.requests.filter fun request => request.landedBy world.clock).map Request.effect

/-- An answer a read may give now: the receiver's state, or any failure. -/
def Tells (world : World H E) : Except E (Option H) → Prop
  | .ok (some effect) => effect ∈ world.held
  | .ok none => world.held = []
  | .error _ => True

/-- An answer a create may give now: it shows the effect, or says nothing landed only where
nothing landed or will. -/
def Confirms (receiver : KeyedReceiver E) (world : World H E) (opening : Opening H E) :
    Except E H → Prop
  | .ok effect => ∃ request, opening.request = some request ∧ request.effect = effect ∧
      request.landedBy world.clock = true
  | .error failure => receiver.createFailure failure = .nothingLanded →
      ∀ request, opening.request = some request → request.landing = none

def LandsInTime (receiver : KeyedReceiver E) (sent : Nat) (landing : Option Nat) : Prop :=
  ∀ instant, landing = some instant →
    sent ≤ instant ∧ instant ≤ saturatingAdd sent receiver.inFlightBound

def Enabled (receiver : KeyedReceiver E) (world : World H E) : Event H E → Prop
  | .advance clock => world.clock ≤ clock ∧ clock ≤ durationMax
  | .open => world.running = none
  | .sample answer => ∃ opening, world.running = some opening ∧ opening.point.reads = true ∧
      opening.sampled = none ∧ world.Tells answer
  | .found => ∃ opening, world.running = some opening ∧ opening.point.reads = true ∧
      opening.sampled.isSome = true
  | .woke => ∃ opening wake, world.running = some opening ∧ opening.point.wakeAt = some wake ∧
      wake ≤ world.clock
  | .reach _ landing => ∃ opening, world.running = some opening ∧ opening.point.creates = true ∧
      opening.request = none ∧ LandsInTime receiver world.clock landing
  | .created answer => ∃ opening, world.running = some opening ∧ opening.point.creates = true ∧
      world.Confirms receiver opening answer
  | .kill => world.running.isSome = true

/-- The run goes on at a point, each create it calls counted as it is called. -/
def moveTo (world : World H E) (opening : Opening H E) (point : Point E) : World H E :=
  { world with
    running := some { opening with
      point := point
      sampled := none
      creates := opening.creates + if point.creates then 1 else 0
      request := if point.creates then none else opening.request } }

def take (world : World H E) (opening : Opening H E) : Turn H E → World H E
  | .awaits point => world.moveTo opening point
  | .answers result =>
    { world with running := none, ended := world.ended ++ [⟨opening, some result⟩] }

def losesAnswer (receiver : KeyedReceiver E) : Except E H → Bool
  | .ok _ => false
  | .error failure => receiver.createFailure failure = .mayHaveLanded

def next (receiver : KeyedReceiver E) (world : World H E) : Event H E → World H E
  | .advance clock => { world with clock := clock }
  | .open => { world with running := some ⟨.opened world.clock, none, 0, none, false⟩ }
  | .sample answer =>
    { world with running := world.running.map fun opening =>
        { opening with sampled := some (world.clock, answer) } }
  | .found =>
    match world.running with
    | some opening =>
      match opening.sampled with
      | some (_, answer) =>
        world.take opening (opening.point.afterFind receiver world.clock answer)
      | none => world
    | none => world
  | .woke =>
    match world.running with
    | some opening => world.moveTo opening opening.point.afterSleep
    | none => world
  | .reach effect landing =>
    { world with
      requests := world.requests ++ [⟨world.clock, effect, landing⟩]
      running := world.running.map fun opening =>
        { opening with request := some ⟨world.clock, effect, landing⟩ } }
  | .created answer =>
    match world.running with
    | some opening =>
      world.take { opening with lost := opening.lost || losesAnswer receiver answer }
        (opening.point.afterCreate receiver answer)
    | none => world
  | .kill =>
    match world.running with
    | some opening => { world with running := none, ended := world.ended ++ [⟨opening, none⟩] }
    | none => world

def Step (receiver : KeyedReceiver E) (world : World H E) (event : Event H E)
    (after : World H E) : Prop :=
  world.Enabled receiver event ∧ after = world.next receiver event

def landings (world : World H E) : List (Request H) :=
  world.requests.filter fun request => request.landing.isSome

end World

end LogicalWorks.Keyed
