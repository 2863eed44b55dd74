import LogicalWorks.Ecs.Seam
import LogicalWorks.Ecs.Runs

/-! Hashes and a journal plain enough to be evaluated, and bots over numbers: they stand
for the derived identities and the shipped journals wherever a result is run on an input. -/
namespace LogicalWorks.Ecs.PlainBot
open Journal (Digest)

def digestOf (number : Nat) : Digest :=
  Digest.fromBytes [UInt8.ofNat (number / 256), UInt8.ofNat number]

scoped instance plainWire : EventWire where
  payloadLen _ := some 1
  genesis := digestOf 0
  chain head _ := head

scoped instance plainHashing : Hashing where
  actionId _ chain entry _ := 10 * chain + entry + 1
  actionDigest _ chain entry input := digestOf (100 * chain + 10 * entry + input)
  inputStamp counter := counter

def chainOf (entries : Nat) : EcsChain Nat where
  cadence := .tick
  same left right := left == right
  identify value := ⟨value, false⟩
  entries := List.replicate entries ⟨"a", .internal⟩

def environment : Broker := ⟨Index.empty.insert 2 ⟨1, true⟩⟩

def scope : EffectScope MemoryJournal := ⟨⟨1, 2, digestOf 9⟩, environment, .empty⟩

/-- Two attempts, with no wait between them and no deadline short of the longest. -/
def policy : RetryPolicy := ⟨2, 0, 0, durationMax⟩

def bot (chains : List (EcsChain Nat)) : EcsBot Nat MemoryJournal :=
  EcsBot.idle chains policy 0 (EcsBot.freshLedger "b" chains scope)

theorem assembled_bot (chains : List (EcsChain Nat))
    (h : Cadence.every 0 ∉ chains.map EcsChain.cadence) : (bot chains).Assembled := by
  refine ⟨"b", chains, policy, 0, scope, scope, ?_⟩
  have hname : ¬ "b" = "" := by decide
  have hrecovered : EcsBot.recovered "b" chains scope =
      (.ok (EcsBot.freshLedger "b" chains scope), scope) := rfl
  unfold EcsBot.assemble
  rw [Call.bind_of_ok (Call.refuseIf_of_not _ _ hname), Call.bind_of_ok hrecovered,
    Call.bind_of_ok (Call.refuseIf_of_not _ _ h)]
  rfl

theorem reachable_bot (chains : List (EcsChain Nat))
    (h : Cadence.every 0 ∉ chains.map EcsChain.cadence) : (bot chains).Reachable :=
  ⟨bot chains, [], assembled_bot chains h, rfl⟩

def inputOf (polls : List (Option Nat)) (check : Nat → Bool) (answers : List (Except BotError Unit)) :
    TickInput Nat where
  clock := 5
  settled := .ok ()
  quiet _ := false
  poll chain := .ok ((polls[chain]?).join)
  check _ value := .ok (check value)
  answer work := (answers[work.chain]?).getD (.ok ())
  patience := none

end LogicalWorks.Ecs.PlainBot
