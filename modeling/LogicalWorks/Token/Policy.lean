import LogicalWorks.Token.Caveat

/-! The bearer token and its authority: a chain of keyed hashes over the token's identity and
its caveats, extended by any holder and recomputed by the holder of the root key. -/
namespace LogicalWorks.Token

/-- The hashes a token is chained and a decision sealed with. -/
class KeyedHash (Tag : Type) where
  keyed : Tag → Bytes → Tag
  framed : List Bytes → Tag

abbrev TokenId := { bytes : Bytes // bytes.length = 32 }

variable {Tag : Type} [KeyedHash Tag]

def foldStep (key : Tag) (caveat : Caveat) : Except TokenError Tag :=
  (canonicalCaveat caveat).map (KeyedHash.keyed key)

def chainOver (root : Tag) (id : TokenId) (caveats : List Caveat) : Except TokenError Tag :=
  caveats.foldlM foldStep (KeyedHash.keyed root id.val)

structure BearerToken (Tag : Type) where
  id : TokenId
  caveats : List Caveat
  tag : Tag
  deriving DecidableEq

def Caveat.check (caveat : Caveat) : Except TokenError Unit :=
  (Caveat.new caveat.audience caveat.action caveat.resource caveat.expiresAt).map fun _ => ()

def BearerToken.check (caveats : List Caveat) : Except TokenError Unit :=
  if caveats.isEmpty then .error .emptyCaveats
  else if maxCaveats < caveats.length then .error (.tooManyCaveats caveats.length maxCaveats)
  else caveats.forM Caveat.check

def narrows (opening caveat : Caveat) : Bool :=
  caveat.audience = opening.audience && caveat.action = opening.action &&
    underScope caveat.resource opening.resource &&
    caveat.expiresAt.nanos ≤ opening.expiresAt.nanos

def admitCaveat (opening caveat : Caveat) : Except TokenError Unit := do
  caveat.check
  if narrows opening caveat then .ok () else .error .widensAuthority

def BearerToken.attenuate (token : BearerToken Tag) (extra : List Caveat) :
    Except TokenError (BearerToken Tag) :=
  if extra.isEmpty then .error .emptyCaveats
  else
    let total := min (token.caveats.length + extra.length) (2 ^ 64 - 1)
    if maxCaveats < total then .error (.tooManyCaveats total maxCaveats)
    else
      match token.caveats.head? with
      | none => .error .emptyCaveats
      | some opening => do
          extra.forM (admitCaveat opening)
          let tag ← extra.foldlM foldStep token.tag
          .ok ⟨token.id, token.caveats ++ extra, tag⟩

structure Authority (Tag : Type) where
  root : Tag

structure RevocationList where
  ids : List TokenId

namespace RevocationList

def empty : RevocationList := ⟨[]⟩

def contains (revocations : RevocationList) (id : TokenId) : Bool := id ∈ revocations.ids

def revoke (revocations : RevocationList) (id : TokenId) : Except TokenError RevocationList :=
  if revocations.contains id then .ok revocations
  else if maxRevoked ≤ revocations.ids.length then .error .revocationFull
  else .ok ⟨revocations.ids ++ [id]⟩

end RevocationList

namespace Authority

def mint (authority : Authority Tag) (audience action resource : Text) (ttl now : Duration)
    (draw : Option TokenId) : Except TokenError (BearerToken Tag) := do
  let caveat ← Caveat.new audience action resource (now.saturatingAdd ttl)
  match draw with
  | none => .error .entropy
  | some id => do
      let tag ← chainOver authority.root id [caveat]
      .ok ⟨id, [caveat], tag⟩

def workloadAction : Text := [119, 111, 114, 107, 108, 111, 97, 100, 46, 105, 110, 118, 111, 107, 101]

def issueWorkload (authority : Authority Tag) (audience resource : Text) (ttl now : Duration)
    (draw : Option TokenId) : Except TokenError (BearerToken Tag) :=
  authority.mint audience workloadAction resource ttl now draw

def lapsed (now : Duration) (caveats : List Caveat) : Option Caveat :=
  caveats.find? fun caveat => caveat.expiresAt.nanos ≤ now.nanos

def verify [DecidableEq Tag] (authority : Authority Tag) (token : BearerToken Tag)
    (revocations : RevocationList) (now : Duration) : Except TokenError Unit := do
  BearerToken.check token.caveats
  let recomputed ← chainOver authority.root token.id token.caveats
  if recomputed ≠ token.tag then .error .tampered
  else
    match lapsed now token.caveats with
    | some caveat => .error (.expired caveat.expiresAt now)
    | none => if revocations.contains token.id then .error .revoked else .ok ()

end Authority

end LogicalWorks.Token

/-! The deterministic evaluator: verify, then walk audience, action and resource, recording
every step.  A trace line is cut to its bound between two characters, or the call panics. -/
namespace LogicalWorks.Token

inductive Rule where
  | signature
  | expiry
  | revocation
  | audience
  | action
  | resource
  deriving DecidableEq, Repr

structure TraceStep where
  rule : Rule
  version : UInt32
  inputs : Text
  deriving DecidableEq

def policyVersion : UInt32 := 1

structure Decision (Tag : Type) where
  allowed : Bool
  trace : List TraceStep
  inputsHash : Tag
  deriving DecidableEq

def continues (byte : UInt8) : Bool := byte &&& 0xC0 = 0x80

def isCharBoundary (text : Text) (index : Nat) : Bool :=
  match text[index]? with
  | some byte => !continues byte
  | none => index = text.length

def truncate (text : Text) (length : Nat) : Option Text :=
  if text.length ≤ length then some text
  else if isCharBoundary text length then some (text.take length)
  else none

def hexDigits : Bytes := [48, 49, 50, 51, 52, 53, 54, 55, 56, 57, 97, 98, 99, 100, 101, 102]

def hexDigit (value : Nat) : UInt8 := hexDigits.getD value 48

def hexEncode (bytes : Bytes) : Text :=
  bytes.flatMap fun byte => [hexDigit (byte.toNat / 16), hexDigit (byte.toNat % 16)]

def decimal (number : Nat) : Text :=
  (Nat.toDigits 10 number).map fun digit => UInt8.ofNat digit.toNat

namespace Policy

def line (request : Request) (now : Duration) (id : TokenId) : Text :=
  [97, 117, 100, 61] ++ request.audience ++ [32, 97, 99, 116, 61] ++ request.action ++
    [32, 114, 101, 115, 61] ++ request.resource ++ [32, 110, 111, 119, 61] ++ decimal now.nanos ++
    [32, 105, 100, 61] ++ hexEncode (id.val.take 8)

def stamp (request : Request) (now : Duration) (id : TokenId) : Option Text :=
  truncate (line request now id) maxTextLen

def push (trace : List TraceStep) (rule : Rule) (inputs : Text) : List TraceStep :=
  if trace.length < maxTrace then trace ++ [⟨rule, policyVersion, inputs⟩] else trace

def covers (caveat : Caveat) (request : Request) : Bool :=
  caveat.audience = request.audience && caveat.action = request.action &&
    underScope request.resource caveat.resource

variable {Tag : Type} [KeyedHash Tag]

/-- Seal a verdict.  The policy fields decoded from an empty map and `null` always mark it. -/
def finish (allowed : Bool) (trace : List TraceStep) (token : BearerToken Tag) (request : Request)
    (now : Duration) : Decision Tag where
  allowed := allowed
  trace := trace
  inputsHash := KeyedHash.framed
    [token.id.val, request.audience, request.action, request.resource,
      Bytes.littleEndian 16 now.nanos, [if allowed then 1 else 0], [100, 117, 109, 109, 121]]

def walk [DecidableEq Tag] (recomputed : Tag) (token : BearerToken Tag) (request : Request)
    (revocations : RevocationList) (now : Duration) (inputs : Text) : Decision Tag :=
  let authentic := recomputed = token.tag
  let trace := push [] .signature inputs
  if ¬ authentic then finish false trace token request now
  else
    let live := (Authority.lapsed now token.caveats).isNone
    let trace := push trace .expiry inputs
    if ¬ live then finish false trace token request now
    else
      let trace := push trace .revocation inputs
      if revocations.contains token.id then finish false trace token request now
      else
        let covered := token.caveats.all fun caveat => covers caveat request
        let trace := push (push (push trace .audience inputs) .action inputs) .resource inputs
        finish (authentic && live && covered) trace token request now

def decide [DecidableEq Tag] (authority : Authority Tag) (token : BearerToken Tag)
    (request : Request) (revocations : RevocationList) (now : Duration) :
    Option (Except TokenError (Decision Tag)) :=
  match BearerToken.check token.caveats with
  | .error refusal => some (.error refusal)
  | .ok _ =>
    match chainOver authority.root token.id token.caveats with
    | .error refusal => some (.error refusal)
    | .ok recomputed =>
      (stamp request now token.id).map fun inputs =>
        .ok (walk recomputed token request revocations now inputs)

def Allows [DecidableEq Tag] (authority : Authority Tag) (token : BearerToken Tag)
    (request : Request) (revocations : RevocationList) (now : Duration) : Prop :=
  ∃ decision, decide authority token request revocations now = some (.ok decision) ∧
    decision.allowed = true

end Policy

end LogicalWorks.Token
