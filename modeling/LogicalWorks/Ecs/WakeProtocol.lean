import LogicalWorks.Ecs.Bot
import LogicalWorks.Lib.Run

/-! The wakes, one atomic operation at a time: any number of calls of `wake` on any threads beside
the tick that takes their flags and polls, wave after wave, until it ends or is dropped. -/
namespace LogicalWorks.Ecs

def Cadences.nextTick (cadences : Cadences) (retry : Option Nat) (clock : Nat) : NextTick :=
  if cadences.any then .now
  else
    let deadline :=
      match cadences.earliest, retry.map nanos with
      | some every, some retry => some (min every retry)
      | every, retry => every.or retry
    match deadline with
    | none => .idle
    | some due => if due ≤ nanos clock then .now else .after (due - nanos clock)

inductive CallPoint where
  | loading
  | swapping
  | raising
  | waking
  | returned
  deriving DecidableEq, Repr

structure WakeCall where
  chain : Nat
  point : CallPoint
  deriving DecidableEq, Repr

/-- Where a tick stands: taking the wakes, the first of them taken; or polling, the chains of the
wave still to be started, the waves behind it and the polls underway. -/
inductive TickPoint where
  | taking (woken : List Bool)
  | polling (woken : List Bool) (starting : List Nat) (waves : List (List Nat)) (running : List Nat)
  deriving DecidableEq, Repr

/-- What is seen of a run: a wake took effect, a poll began, or it answered. -/
inductive WakeEvent where
  | woken (call chain : Nat)
  | begun (chain : Nat)
  | answered (chain : Nat)
  deriving DecidableEq, Repr

structure WakeWorld where
  cadences : Cadences
  parked : Bool
  calls : List WakeCall
  tick : Option TickPoint
  history : List WakeEvent
  deriving DecidableEq, Repr

inductive PollEnd where
  | answered
  | failed
  | cancelled
  deriving DecidableEq, Repr

inductive WakeStep where
  | call (chain : Nat)
  | turn (call : Nat)
  | park
  | beginTick
  | takeNext
  | enterPolls
  | startNext (now : Nat) (quiet : Bool)
  | nextWave
  | resolve (chain : Nat) (ending : PollEnd)
  | finish
  | drop
  deriving DecidableEq, Repr

namespace WakeWorld

def new (kinds : List Cadence) : WakeWorld := ⟨.new kinds, false, [], none, []⟩

def note (world : WakeWorld) (event : WakeEvent) : WakeWorld :=
  { world with history := world.history ++ [event] }

def moveCall (world : WakeWorld) (id : Nat) (call : WakeCall) (point : CallPoint) : WakeWorld :=
  { world with calls := world.calls.set id ⟨call.chain, point⟩ }

def turn (world : WakeWorld) (id : Nat) (call : WakeCall) : WakeWorld :=
  match call.point with
  | .loading =>
    match world.cadences.pending[call.chain]? with
    | none => world.moveCall id call .returned
    | some true => (world.note (.woken id call.chain)).moveCall id call .returned
    | some false => world.moveCall id call .swapping
  | .swapping =>
    if world.cadences.pending[call.chain]? = some true then
      (world.note (.woken id call.chain)).moveCall id call .returned
    else
      { (world.note (.woken id call.chain)).moveCall id call .raising with
        cadences := { world.cadences with
          pending := world.cadences.pending.set call.chain true } }
  | .raising =>
    { world.moveCall id call .waking with cadences := { world.cadences with any := true } }
  | .waking => { world.moveCall id call .returned with parked := false }
  | .returned => world

def takeFlag (world : WakeWorld) (woken : List Bool) : WakeWorld :=
  { world with
    cadences := { world.cadences with
      pending := world.cadences.pending.set woken.length false }
    tick := some (.taking (woken ++ [decide (world.cadences.pending[woken.length]? = some true)])) }

def startPoll (world : WakeWorld) (now : Nat) (quiet : Bool) (woken : List Bool) (chain : Nat)
    (starting : List Nat) (waves : List (List Nat)) (running : List Nat) : WakeWorld :=
  let due := (world.cadences.pollDue chain now woken).1
  let polled := due && !quiet
  { world with
    cadences := (world.cadences.pollDue chain now woken).2
    tick := some (.polling woken starting waves (if polled then running ++ [chain] else running))
    -- A source that is quiet was asked its revision, and answered that it did not move.
    history :=
      if polled then world.history ++ [.begun chain]
      else if due then world.history ++ [.begun chain, .answered chain]
      else world.history }

def enabled (world : WakeWorld) : WakeStep → Bool
  | .call chain => world.cadences.kinds[chain]? = some .wake
  | .turn id => (world.calls[id]?).any fun call => call.point ≠ .returned
  | .park | .beginTick => world.tick.isNone
  | .takeNext =>
    match world.tick with
    | some (.taking woken) => woken.length < world.cadences.pending.length
    | _ => false
  | .enterPolls =>
    match world.tick with
    | some (.taking woken) => world.cadences.pending.length ≤ woken.length
    | _ => false
  | .startNext _ _ =>
    match world.tick with
    | some (.polling _ (_ :: _) _ _) => true
    | _ => false
  | .nextWave =>
    match world.tick with
    | some (.polling _ [] (_ :: _) []) => true
    | _ => false
  | .resolve chain _ =>
    match world.tick with
    | some (.polling _ [] _ running) => chain ∈ running
    | _ => false
  | .finish =>
    match world.tick with
    | some (.polling _ [] [] []) => true
    | _ => false
  | .drop =>
    match world.tick with
    | some (.polling _ [] waves running) => running ≠ [] || waves.isEmpty
    | _ => false

def next (world : WakeWorld) : WakeStep → WakeWorld
  | .call chain => { world with calls := world.calls ++ [⟨chain, .loading⟩] }
  | .turn id =>
    match world.calls[id]? with
    | some call => world.turn id call
    | none => world
  | .park => { world with parked := true }
  | .beginTick =>
    { world with cadences := { world.cadences with any := false }, tick := some (.taking []) }
  | .takeNext =>
    match world.tick with
    | some (.taking woken) => world.takeFlag woken
    | _ => world
  | .enterPolls =>
    match world.tick with
    | some (.taking woken) =>
      { world with tick := some (.polling woken []
        (EcsBot.waves maxInFlightPolls (List.range world.cadences.kinds.length)) []) }
    | _ => world
  | .startNext now quiet =>
    match world.tick with
    | some (.polling woken (chain :: starting) waves running) =>
      world.startPoll now quiet woken chain starting waves running
    | _ => world
  | .nextWave =>
    match world.tick with
    | some (.polling woken [] (wave :: waves) running) =>
      { world with tick := some (.polling woken wave waves running) }
    | _ => world
  | .resolve chain ending =>
    match world.tick with
    | some (.polling woken starting waves running) =>
      { world with
        tick := some (.polling woken starting waves (running.erase chain))
        history := if ending = .answered then world.history ++ [.answered chain]
          else world.history }
    | _ => world
  | .finish | .drop => { world with tick := none }

def Step (world : WakeWorld) (step : WakeStep) (after : WakeWorld) : Prop :=
  world.enabled step = true ∧ world.next step = after

end WakeWorld
end LogicalWorks.Ecs
