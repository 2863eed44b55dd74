import LogicalWorks.Task.Digests
import LogicalWorks.Task.FrameLog
import LogicalWorks.Lib.Checks
import Mathlib.Algebra.Order.Ring.Nat

/-! The records behind a parked approval: the pending bytes, the decision that answers them, the keys
they are filed under, and the text that names an approval.  The archive and the digest are
parameters. -/
namespace LogicalWorks.Approval
open Journal LogicalWorks.Task

def u64Max : Nat := 18446744073709551615

structure PendingRecord where
  tenant : String
  run : RunId
  path : String
  name : String
  digest : Digest
  payload : Bytes
  parkedAtNanos : Nat
  ttlNanos : Nat
  deriving DecidableEq, Repr

def PendingRecord.expiresAt (pending : PendingRecord) : Nat :=
  min (pending.parkedAtNanos + pending.ttlNanos) u64Max

structure DecisionRecord where
  pendingKeyHex : String
  approved : Bool
  expired : Bool
  digest : Digest
  by_ : String
  deriving DecidableEq, Repr

inductive ApprovalRecord where
  | pending (pending : PendingRecord)
  | decision (decision : DecisionRecord)
  deriving DecidableEq, Repr

structure Archive where
  hash : Bytes → Digest
  toRecord : ApprovalRecord → Option Bytes
  fromRecord : Bytes → Option ApprovalRecord
  payloadToRecord : Bytes → Option Bytes

structure Archive.Lawful (archive : Archive) : Prop where
  roundTrip : ∀ {record bytes}, archive.toRecord record = some bytes →
    archive.fromRecord bytes = some record

/-- What the bytes under an approval step key hold. -/
inductive RecordClass where
  | pending (pending : PendingRecord)
  | decision (decision : DecisionRecord)
  | other
  deriving DecidableEq, Repr

def classifyRecord (archive : Archive) (bytes : Bytes) : RecordClass :=
  match archive.fromRecord bytes with
  | some (.pending pending) => .pending pending
  | some (.decision decision) => .decision decision
  | none => .other

def stepKey (archive : Archive) (tenant path : String) : Digest :=
  hashFramed archive.hash [utf8 tenant, utf8 path]

def decisionPath (path : String) : String := path ++ "/decision"

def decisionKeyFor (archive : Archive) (tenant path : String) : Digest :=
  stepKey archive tenant (decisionPath path)

def approvalDigest (archive : Archive) (archived : Bytes) : Digest :=
  hashFramed archive.hash [utf8 "lgwks.bot/approval.v1", archived]

section Hex

def decodeNibble (digit : Char) : Option Nat :=
  if '0' ≤ digit ∧ digit ≤ '9' then some (digit.toNat - '0'.toNat)
  else if 'a' ≤ digit ∧ digit ≤ 'f' then some (digit.toNat - 'a'.toNat + 10)
  else if 'A' ≤ digit ∧ digit ≤ 'F' then some (digit.toNat - 'A'.toNat + 10)
  else none

def decodeHex : List Char → Option Bytes
  | [] => some []
  | [_] => none
  | high :: low :: rest => do
      let high ← decodeNibble high
      let low ← decodeNibble low
      let bytes ← decodeHex rest
      pure (UInt8.ofNat (16 * high + low) :: bytes)

def digestFromHex (text : List Char) : Option Digest :=
  if text.length = 2 * headBytes then (decodeHex text).map Digest.fromBytes else none

def isLowercaseHex (digit : Char) : Bool :=
  decide ('0' ≤ digit ∧ digit ≤ '9' ∨ 'a' ≤ digit ∧ digit ≤ 'f')

def radix16 (text : List Char) : Nat :=
  text.foldl (fun number digit => 16 * number + (decodeNibble digit).getD 0) 0

def runFromHex (text : List Char) : Option RunId :=
  if text.length ≠ 32 then none
  else if ¬ text.all isLowercaseHex then none
  else if radix16 text = 0 then none else some (radix16 text)

def runToHex (run : RunId) : String := hexOf (u128BE run)

theorem toList_hexOf (bytes : Bytes) : (hexOf bytes).toList =
    bytes.flatMap fun byte => [hexDigit (byte.toNat / 16), hexDigit (byte.toNat % 16)] := by
  rw [hexOf, String.toList_ofList]

theorem decodeNibble_hexDigit {value : Nat} (h : value < 16) :
    decodeNibble (hexDigit value) = some value ∧ isLowercaseHex (hexDigit value) = true ∧
      hexDigit value ≠ ':' := by
  have hall : ∀ value : Fin 16, decodeNibble (hexDigit value) = some value.val ∧
      isLowercaseHex (hexDigit value) = true ∧ hexDigit value ≠ ':' := by decide
  exact hall ⟨value, h⟩

theorem nibbles_lt (byte : UInt8) : byte.toNat / 16 < 16 ∧ byte.toNat % 16 < 16 := by
  have hbyte : byte.toNat < 256 := byte.toNat_lt
  omega

theorem decodeHex_hexOf (bytes : Bytes) : decodeHex (hexOf bytes).toList = some bytes := by
  rw [toList_hexOf]
  induction bytes with
  | nil => rfl
  | cons byte rest ih =>
    obtain ⟨hhigh, hlow⟩ := nibbles_lt byte
    simp only [List.flatMap_cons, List.cons_append, List.nil_append, decodeHex,
      (decodeNibble_hexDigit hhigh).1, (decodeNibble_hexDigit hlow).1, ih, Option.bind_eq_bind,
      Option.bind_some, Option.pure_def]
    rw [Nat.div_add_mod, UInt8.ofNat_toNat]

theorem length_hexOf (bytes : Bytes) : (hexOf bytes).toList.length = 2 * bytes.length := by
  rw [toList_hexOf]
  induction bytes with
  | nil => rfl
  | cons byte rest ih =>
    simp only [List.flatMap_cons, List.length_append, List.length_cons, List.length_nil, ih]
    omega

theorem digestFromHex_hexOf (digest : Digest) :
    digestFromHex (hexOf digest.bytes).toList = some digest := by
  unfold digestFromHex
  rw [length_hexOf, digest.length_bytes, if_pos rfl, decodeHex_hexOf, Option.map_some,
    Digest.fromBytes_bytes]

theorem mem_hexOf {bytes : Bytes} {digit : Char} (h : digit ∈ (hexOf bytes).toList) :
    isLowercaseHex digit = true ∧ digit ≠ ':' := by
  rw [toList_hexOf] at h
  obtain ⟨byte, -, hdigit⟩ := List.mem_flatMap.mp h
  obtain ⟨hhigh, hlow⟩ := nibbles_lt byte
  rcases List.mem_cons.mp hdigit with rfl | hdigit
  · exact (decodeNibble_hexDigit hhigh).2
  · rw [List.mem_singleton.mp hdigit]
    exact (decodeNibble_hexDigit hlow).2

theorem radix16_hexOf (bytes : Bytes) :
    radix16 (hexOf bytes).toList = Bytes.ofLittleEndian bytes.reverse := by
  have hfold : ∀ number : Nat, (bytes.flatMap fun byte =>
      [hexDigit (byte.toNat / 16), hexDigit (byte.toNat % 16)]).foldl
        (fun number digit => 16 * number + (decodeNibble digit).getD 0) number =
      bytes.foldl (fun number byte => byte.toNat + 256 * number) number := by
    induction bytes with
    | nil => exact fun _ => rfl
    | cons byte rest ih =>
      intro number
      obtain ⟨hhigh, hlow⟩ := nibbles_lt byte
      simp only [List.flatMap_cons, List.cons_append, List.nil_append, List.foldl_cons,
        (decodeNibble_hexDigit hhigh).1, (decodeNibble_hexDigit hlow).1, Option.getD_some, ih]
      congr 1
      omega
  rw [toList_hexOf, radix16, hfold, Bytes.ofLittleEndian, List.foldr_reverse]

theorem runFromHex_runToHex {run : RunId} (hpos : 0 < run) (hlt : run < 2 ^ 128) :
    runFromHex (runToHex run).toList = some run := by
  have hlength : (u128BE run).length = 16 := by
    rw [u128BE, List.length_reverse, Bytes.length_littleEndian]
  have hall : (hexOf (u128BE run)).toList.all isLowercaseHex = true := by
    rw [List.all_eq_true]
    exact fun digit hdigit => (mem_hexOf hdigit).1
  have hvalue : radix16 (hexOf (u128BE run)).toList = run := by
    rw [radix16_hexOf, u128BE, List.reverse_reverse]
    exact Bytes.ofLittleEndian_littleEndian (Nat.lt_of_lt_of_eq hlt (by norm_num))
  unfold runFromHex runToHex
  rw [length_hexOf, hlength, if_neg (by simp), if_neg (not_not.mpr hall), hvalue,
    if_neg (Nat.ne_of_gt hpos)]

theorem runToHex_inj {left right : RunId} (hleft : 0 < left ∧ left < 2 ^ 128)
    (hright : 0 < right ∧ right < 2 ^ 128) (h : runToHex left = runToHex right) : left = right := by
  have hread := runFromHex_runToHex hleft.1 hleft.2
  rw [h, runFromHex_runToHex hright.1 hright.2] at hread
  exact (Option.some.inj hread).symm

end Hex

structure ApprovalId where
  run : RunId
  key : Digest
  deriving DecidableEq, Repr

namespace ApprovalId

def toText (id : ApprovalId) : List Char :=
  (runToHex id.run).toList ++ ':' :: (hexOf id.key.bytes).toList

def parse (text : List Char) : Option ApprovalId :=
  match text.dropWhile fun digit => digit ≠ ':' with
  | [] => none
  | _ :: key => do
      let run ← runFromHex (text.takeWhile fun digit => digit ≠ ':')
      let key ← digestFromHex key
      pure ⟨run, key⟩

theorem parse_toText {id : ApprovalId} (hpos : 0 < id.run) (hlt : id.run < 2 ^ 128) :
    parse id.toText = some id := by
  have hrun : ∀ digit ∈ (runToHex id.run).toList, (decide (digit ≠ ':')) = true := by
    intro digit hdigit
    exact decide_eq_true (mem_hexOf hdigit).2
  unfold parse toText
  rw [List.dropWhile_append_of_pos hrun, List.takeWhile_append_of_pos hrun]
  simp [runFromHex_runToHex hpos hlt, digestFromHex_hexOf]

end ApprovalId

end LogicalWorks.Approval

/-! What a decision is checked against before it is recorded, and what a resume makes of the records
it finds. -/
namespace LogicalWorks.Approval
open Journal LogicalWorks.Task

inductive ApprovalVerdict where
  | approve
  | deny
  deriving DecidableEq, Repr

structure ApprovalDecision where
  by_ : String
  verdict : ApprovalVerdict
  digest : Digest
  deriving DecidableEq, Repr

inductive DecisionError where
  | digestMismatch (want got : Digest)
  | alreadyDecided (id : List Char)
  | foreignTenant (owner asked : String)
  | expired (id : List Char)
  | unknown (id : List Char)
  | store (source : Task.StoreError)
  | unarchived
  deriving DecidableEq, Repr

abbrev Found := Except Task.StoreError (Option Bytes)

section Decide

variable (archive : Archive)

def readPending (id : ApprovalId) (found : Found) : Except DecisionError PendingRecord :=
  match found with
  | .ok (some bytes) =>
    match classifyRecord archive bytes with
    | .pending pending => .ok pending
    | .decision _ | .other => .error (.unknown id.toText)
  | .ok none => .error (.unknown id.toText)
  | .error (.foreignTenant owner asked) => .error (.foreignTenant owner asked)
  | .error source => .error (.store source)

def checkUndecided (id : ApprovalId) (found : Found) : Except DecisionError Unit :=
  match found with
  | .ok (some bytes) =>
    match classifyRecord archive bytes with
    | .decision decided =>
      if decided.expired then .error (.expired id.toText) else .error (.alreadyDecided id.toText)
    | .pending _ | .other => .error (.alreadyDecided id.toText)
  | .ok none => .ok ()
  | .error source => .error (.store source)

def lapseRecord (key : Digest) (pending : PendingRecord) : DecisionRecord :=
  ⟨hexOf key.bytes, false, true, pending.digest, "expiry"⟩

def decisionRecord (key : Digest) (decision : ApprovalDecision) : DecisionRecord :=
  ⟨hexOf key.bytes, decide (decision.verdict = .approve), false, decision.digest, decision.by_⟩

/-- What is to be recorded: the lapse where the deadline passed, else the decision, where it names
the pending bytes. -/
def judge (id : ApprovalId) (pending : PendingRecord) (decision : ApprovalDecision) (now : Nat) :
    Except DecisionError DecisionRecord :=
  if pending.expiresAt ≤ now then .ok (lapseRecord id.key pending)
  else if decision.digest ≠ pending.digest then
    .error (.digestMismatch pending.digest decision.digest)
  else .ok (decisionRecord id.key decision)

/-- What a decision would record over what the store holds, if nothing moved. -/
def Accepts (tenant : String) (lookup : RunId → Digest → Found) (now : Nat) (text : List Char)
    (decision : ApprovalDecision) : Prop :=
  ∃ id pending, ApprovalId.parse text = some id ∧
    readPending archive id (lookup id.run id.key) = .ok pending ∧
    checkUndecided archive id
      (lookup id.run (decisionKeyFor archive tenant pending.path)) = .ok () ∧
    judge id pending decision now = .ok (decisionRecord id.key decision)

end Decide

section Resume

variable (archive : Archive)

/-- How a resume of a parked step ends, as far as the records tell. -/
inductive Outcome where
  | parked (id : ApprovalId) (digest : Digest) (expiresAt : Nat)
  | approved (digest : Digest) (payload : Bytes) (by_ : String)
  | denied (id : ApprovalId)
  | expired (id : ApprovalId)
  | limited (requested limit : Nat)
  | failed (reason : String)
  | store (source : Task.StoreError)
  deriving DecidableEq, Repr

def notPending : String :=
  "the record for this step is not a pending approval, so this resume cannot decide it"

def notItsDecision : String :=
  "the record beside this approval is not its decision, so this resume cannot follow it"

def otherDigest : String :=
  "the recorded decision names a different payload digest, so this resume cannot follow it"

def followDecision (id : ApprovalId) (pending : PendingRecord) (bytes : Bytes) : Outcome :=
  match classifyRecord archive bytes with
  | .decision decision =>
    if decision.pendingKeyHex = hexOf id.key.bytes then
      if decision.digest ≠ pending.digest then .failed otherDigest
      else if decision.expired then .expired id
      else if !decision.approved then .denied id
      else .approved pending.digest pending.payload decision.by_
    else .failed notItsDecision
  | .pending _ | .other => .failed notItsDecision

end Resume

end LogicalWorks.Approval
