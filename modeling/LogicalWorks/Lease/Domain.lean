import LogicalWorks.Lib.Run
import LogicalWorks.Lib.Table
import LogicalWorks.Lease.Wire

/-! A coordination domain: one authority behind its server, any number of calls across the
channel, and a network that delivers whatever it likes of what was ever sent. -/
namespace LogicalWorks.Lease

open Journal LogicalWorks.Task

structure Lease where
  holder : String
  epoch : UInt64
  deriving DecidableEq, Repr

structure LeaseAuthority where
  epoch : UInt64
  holder : Option String
  deriving DecidableEq, Repr

namespace LeaseAuthority

def new : LeaseAuthority := ⟨0, none⟩

def nextEpoch (epoch : UInt64) : UInt64 := if epoch.toNat + 1 < 2 ^ 64 then epoch + 1 else epoch

def acquire (authority : LeaseAuthority) (holder : String) : Lease × LeaseAuthority :=
  (⟨holder, nextEpoch authority.epoch⟩, ⟨nextEpoch authority.epoch, some holder⟩)

def check (authority : LeaseAuthority) (lease : Lease) : Bool := lease.epoch = authority.epoch

def revoke (authority : LeaseAuthority) : LeaseAuthority := ⟨nextEpoch authority.epoch, none⟩

end LeaseAuthority

inductive Call where
  | acquire (holder : String)
  | validate (lease : Lease)
  | admits (lease : Lease)
  deriving DecidableEq, Repr

namespace Call

def op : Call → Op
  | .acquire _ => .acquire
  | .validate _ | .admits _ => .check

def name : Call → String
  | .acquire holder => holder
  | .validate _ | .admits _ => ""

end Call

/-- What a call returns: a lease, whether one is current, an admission, a stale epoch, or no
authenticated answer. -/
inductive Returned where
  | leased (lease : Lease)
  | valid (current : Bool)
  | admitted
  | stale (presented current : UInt64)
  | unanswered (reason : String)
  deriving DecidableEq, Repr

def Call.returns (call : Call) : Except Refusal UInt64 → Returned
  | .error refusal => .unanswered refusal.reason
  | .ok epoch =>
    match call with
    | .acquire holder => .leased ⟨holder, epoch⟩
    | .validate lease => .valid (epoch = lease.epoch)
    | .admits lease => if epoch = lease.epoch then .admitted else .stale lease.epoch epoch

/-- The second half of an exchange: read one reply of the fixed size, and decode it. -/
def Call.answered (call : Call) (key : WireKey) (nonce : Nonce) (stream : Bytes) : Returned :=
  call.returns do
    let (reply, _) ← fill replyLen stream
    decodeReply key nonce reply

def Returned.lease : Returned → Option Lease
  | .leased lease => some lease
  | _ => none

inductive Honours (lease : Lease) : Call → Returned → Prop where
  | valid : Honours lease (.validate lease) (.valid true)
  | admitted : Honours lease (.admits lease) .admitted

structure Moved where
  epoch : UInt64
  holder : Option String
  origin : Option Nonce
  deriving DecidableEq, Repr

/-- The authority, every frame ever sent, every call begun, the calls that wait for their
reply, and what has been: the moves of the epoch, the epochs replied for a nonce, and the
leases handed out. -/
structure Domain where
  authority : LeaseAuthority
  sent : List Bytes
  asked : List (Nonce × Call)
  waiting : Table Nonce Call
  moved : List Moved
  replied : List (Bytes × UInt64)
  leases : List (Option Nonce × Lease)

/-- What happens in a domain.  A call across the channel is two steps, its question and the
bytes it reads for a reply; the server answers whatever bytes reach it; the authority's own
handle acquires, checks and revokes in one step each. -/
inductive Action where
  | ask (call : Call) (nonce : Nonce)
  | reply (nonce : Nonce) (stream : Bytes)
  | fails (nonce : Nonce)
  | serve (stream : Bytes)
  | acquire (holder : String)
  | check (lease : Lease)
  | revoke
  deriving DecidableEq, Repr

namespace Domain

def start : Domain := ⟨.new, [], [], .empty, [], [], []⟩

def move (domain : Domain) (authority : LeaseAuthority) (origin : Option Nonce) : Domain :=
  { domain with
    authority
    moved := domain.moved ++ [⟨authority.epoch, authority.holder, origin⟩] }

def originOf (domain : Domain) (nonce : Bytes) : Option Nonce :=
  (domain.asked.find? fun asked => asked.1.bytes = nonce).map Prod.fst

def answer (domain : Domain) (key : WireKey) (request : Request) : Domain :=
  let moved :=
    match request.op with
    | .check => domain
    | .acquire =>
      domain.move (domain.authority.acquire request.name).2 (domain.originOf request.nonce)
  { moved with
    sent := moved.sent ++ [encodeReply key request.nonce moved.authority.epoch]
    replied := moved.replied ++ [(request.nonce, moved.authority.epoch)] }

def act (key : WireKey) (domain : Domain) : Action → Domain
  | .ask call nonce =>
    match encodeRequest key call.op nonce call.name with
    | .error _ => { domain with asked := domain.asked ++ [(nonce, call)] }
    | .ok frame =>
      { domain with
        sent := domain.sent ++ [frame]
        asked := domain.asked ++ [(nonce, call)]
        waiting := domain.waiting.insert nonce call }
  | .reply nonce stream =>
    match domain.waiting.get nonce with
    | none => domain
    | some call =>
      { domain with
        waiting := domain.waiting.remove nonce
        leases := domain.leases ++
          ((call.answered key nonce stream).lease.map fun lease => (some nonce, lease)).toList }
  | .fails nonce => { domain with waiting := domain.waiting.remove nonce }
  | .serve stream =>
    match readRequest key stream with
    | .error _ => domain
    | .ok request => domain.answer key request
  | .acquire holder =>
    let granted := domain.authority.acquire holder
    { domain.move granted.2 none with leases := domain.leases ++ [(none, granted.1)] }
  | .check _ => domain
  | .revoke => domain.move domain.authority.revoke none

/-- Whatever the network delivers, nobody else can tag: what opens as a tagged frame was
sent. -/
def Unforged (key : WireKey) (domain : Domain) (stream : Bytes) : Prop :=
  ∀ body, key.tagged body <+: stream → key.tagged body ∈ domain.sent

/-- What is relied on: a nonce is drawn once, and no tag is forged. -/
def Allowed (key : WireKey) (domain : Domain) : Action → Prop
  | .ask _ nonce => ∀ asked ∈ domain.asked, asked.1 ≠ nonce
  | .reply _ stream | .serve stream => Unforged key domain stream
  | _ => True

def Step (key : WireKey) (domain : Domain) (action : Action) (next : Domain) : Prop :=
  domain.Allowed key action ∧ domain.act key action = next

end Domain

end LogicalWorks.Lease
