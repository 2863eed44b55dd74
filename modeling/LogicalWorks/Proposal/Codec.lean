import LogicalWorks.Lib.Index
import LogicalWorks.Lib.Bytes
import LogicalWorks.Task.Digests

/-! The bounded decoder: untrusted bytes in, a plan the surface allows out, or a refusal.  A
text is its UTF-8 bytes; a slice whose ends are the wrong way round stops the decoder. -/
namespace LogicalWorks.Proposal
open Journal (Digest)
open LogicalWorks.Task (utf8)

abbrev Text := Bytes

def maxFieldNameBytes : Nat := 32

def usizeMax : Nat := 2 ^ 64 - 1

structure PlanLimits where
  maxBytes : Nat
  maxFieldBytes : Nat
  maxFields : UInt32
  deriving DecidableEq, Repr

inductive Source where
  | model
  | toolOutput
  | document
  deriving DecidableEq, Repr

structure Provenance where
  source : Source
  tenant : Text
  digest : Digest
  bytes : Nat

inductive Refusal where
  | oversized (got limit : Nat)
  | malformed (cause : String) (at_ : Nat)
  | limit (what : String) (got limit : Nat)
  | unknownOperation (name : Text)
  | capabilityNotHeld (operation required : Text)
  | installTool (name : Text)
  | credentialRead (what : Text)
  | sandboxEscape (field : String) (target : Text)
  | empty
  deriving DecidableEq, Repr

inductive Stop where
  | refused (refusal : Refusal)
  | panicked
  deriving DecidableEq, Repr

inductive Coverage where
  | part (covered asked : Nat)
  | complete
  deriving DecidableEq, Repr

def Coverage.fromClaim (claim : Option Text) : Coverage :=
  if claim = some (utf8 "complete") then .part 1 1 else .part 0 1

structure Operation where
  name : Text
  requires : List Text

def Operation.missing (operation : Operation) (held : List Text) : Option Text :=
  operation.requires.find? fun cap => cap ∉ held

structure Surface where
  tenant : Text
  operations : Index Text Operation
  held : List Text

def Surface.authorize (surface : Surface) (name : Text) : Except Refusal Operation :=
  match surface.operations.get name with
  | none => .error (.unknownOperation name)
  | some operation =>
    match operation.missing surface.held with
    | some required => .error (.capabilityNotHeld name required)
    | none => .ok operation

structure Declared where
  ops : List Text
  notes : List Text
  paths : List Text
  coverage : Option Text
  deriving DecidableEq, Repr

namespace Declared

def default : Declared := ⟨[], [], [], none⟩

def isEmpty (declared : Declared) : Bool := declared.ops.isEmpty && declared.paths.isEmpty

end Declared

structure Wanted where
  operation : Text
  path : Option Text
  deriving DecidableEq, Repr

structure Plan where
  wanted : List Wanted
  notes : List Text
  coverage : Coverage
  provenance : Provenance

inductive Outcome where
  | admitted (plan : Plan) (provenance : Provenance)
  | refused (refusal : Refusal) (provenance : Provenance)

def newline : UInt8 := 0x0A
def carriageReturn : UInt8 := 0x0D
def space : UInt8 := 0x20
def equalsSign : UInt8 := 0x3D
def slash : UInt8 := 0x2F
def backslash : UInt8 := 0x5C
def colon : UInt8 := 0x3A

def trimCr (line : Bytes) : Bytes :=
  if line.getLast? = some carriageReturn then line.dropLast else line

/-- Trim spaces from both ends: a slice from how many lead to where the trailing ones begin. -/
def trim (value : Bytes) : Option Bytes :=
  let start := (value.takeWhile fun byte => byte = space).length
  let trailing := (value.reverse.takeWhile fun byte => byte = space).length
  value.slice start (value.length - trailing)

def decodeText (raw : Bytes) : Except Stop Text :=
  match trim raw with
  | some trimmed => .ok (Utf8.lossy trimmed)
  | none => .error .panicked

namespace Reader

def lineCeiling (limits : PlanLimits) : Nat :=
  min (min (limits.maxFieldBytes + maxFieldNameBytes) usizeMax + 1) usizeMax

def skipNewlines (rest : Bytes) : Bytes := rest.dropWhile fun byte => byte = newline

def line (limits : PlanLimits) : Nat → Bytes → Except Stop (Bytes × Bytes)
  | _, [] => .ok ([], [])
  | taken, byte :: rest =>
    if byte = newline then .ok ([], rest)
    else if lineCeiling limits < taken + 1 then
      .error (.refused (.limit "the length of a line in a plan" (taken + 1) (lineCeiling limits)))
    else
      match line limits (taken + 1) rest with
      | .error stop => .error stop
      | .ok (read, left) => .ok (byte :: read, left)

def checkLen (len limit : Nat) (what : String) (at_ : Nat) : Except Stop Unit :=
  if limit < len then .error (.refused (.malformed what at_)) else .ok ()

def refuseForeignHost (surface : Surface) (value : Text) : Except Stop Unit :=
  if value = surface.tenant then .ok () else .error (.refused (.sandboxEscape "host" value))

def store (surface : Surface) (declared : Declared) (name value : Text) (start : Nat) :
    Except Stop Declared :=
  if name = utf8 "op" then .ok { declared with ops := declared.ops ++ [value] }
  else if name = utf8 "note" then .ok { declared with notes := declared.notes ++ [value] }
  else if name = utf8 "path" then .ok { declared with paths := declared.paths ++ [value] }
  else if name = utf8 "coverage" then .ok { declared with coverage := some value }
  else if name = utf8 "install" then .error (.refused (.installTool value))
  else if name = utf8 "credential" then .error (.refused (.credentialRead value))
  else if name = utf8 "host" then (refuseForeignHost surface value).map fun _ => declared
  else .error (.refused (.malformed "a field this decoder does not recognise" start))

def split (line : Bytes) : Option (Bytes × Bytes) :=
  (line.findIdx? fun byte => byte = equalsSign).map fun place =>
    (line.take place, line.drop (place + 1))

def field (limits : PlanLimits) (surface : Surface) (declared : Declared) (line : Bytes)
    (start : Nat) : Except Stop Declared := do
  match split line with
  | none => .error (.refused (.malformed "a line with no `=` separator" start))
  | some (rawName, rawValue) =>
    checkLen rawName.length maxFieldNameBytes "a field name in a plan" start
    checkLen rawValue.length limits.maxFieldBytes "a field value in a plan" start
    let name ← decodeText rawName
    let value ← decodeText rawValue
    store surface declared name value start

theorem line_length {limits : PlanLimits} {taken : Nat} {bytes read left : Bytes}
    (h : line limits taken bytes = .ok (read, left)) (hbytes : bytes ≠ []) :
    left.length < bytes.length := by
  induction bytes generalizing taken read with
  | nil => exact absurd rfl hbytes
  | cons byte rest ih =>
    unfold line at h
    split at h
    · cases h
      exact Nat.lt_succ_self _
    · split at h
      · cases h
      · cases hrest : line limits (taken + 1) rest with
        | error stop => rw [hrest] at h; cases h
        | ok answer =>
          obtain ⟨others, behind⟩ := answer
          rw [hrest] at h
          cases h
          cases rest with
          | nil => cases hrest; exact Nat.zero_lt_one
          | cons next more =>
            exact Nat.lt_succ_of_lt (ih hrest (List.cons_ne_nil _ _))

theorem length_skipNewlines (rest : Bytes) : (skipNewlines rest).length ≤ rest.length :=
  (List.dropWhile_suffix _).length_le

def document (limits : PlanLimits) (surface : Surface) (total fields : Nat) (declared : Declared)
    (rest : Bytes) : Except Stop Declared :=
  if hrest : skipNewlines rest = [] then .ok declared
  else
    match hline : line limits 0 (skipNewlines rest) with
    | .error stop => .error stop
    | .ok (read, left) =>
      if (trimCr read).isEmpty then document limits surface total fields declared left
      else
        let fields := min (fields + 1) (2 ^ 32 - 1)
        if limits.maxFields.toNat < fields then
          .error (.refused (.limit "the number of fields in a plan" fields
            limits.maxFields.toNat))
        else
          match field limits surface declared (trimCr read)
              (total - (skipNewlines rest).length) with
          | .error stop => .error stop
          | .ok declared => document limits surface total fields declared left
termination_by rest.length
decreasing_by
  all_goals exact (line_length hline hrest).trans_le (length_skipNewlines rest)

end Reader

def refuseTraversal (path : Text) : Except Refusal Unit :=
  if path.head? = some slash ∨ path.head? = some backslash ∨ colon ∈ path then
    .error (.sandboxEscape "path" path)
  else if utf8 ".." ∈ path.splitOn slash then .error (.sandboxEscape "path" path)
  else .ok ()

/-- The digest every payload is named by. -/
class PayloadHash where
  digest : Bytes → Digest

structure Decoder where
  limits : PlanLimits

namespace Decoder

def checkSize (decoder : Decoder) (payload : Bytes) : Except Stop Unit :=
  if decoder.limits.maxBytes < payload.length then
    .error (.refused (.oversized payload.length decoder.limits.maxBytes))
  else .ok ()

def read (decoder : Decoder) (surface : Surface) (payload : Bytes) : Except Stop Declared :=
  Reader.document decoder.limits surface payload.length 0 .default payload

def want (surface : Surface) (path : Option Text) (op : Text) : Except Refusal Wanted :=
  (surface.authorize op).map fun _ => ⟨op, path⟩

def plan (surface : Surface) (declared : Declared) (provenance : Provenance) :
    Except Refusal Plan :=
  if declared.isEmpty then .error .empty
  else do
    declared.paths.forM refuseTraversal
    let wanted ← declared.ops.mapM (want surface declared.paths.head?)
    .ok ⟨wanted, declared.notes, .fromClaim declared.coverage, provenance⟩

def authorize (surface : Surface) (declared : Declared) (provenance : Provenance) : Outcome :=
  match plan surface declared provenance with
  | .ok plan => .admitted plan provenance
  | .error refusal => .refused refusal provenance

def decode [PayloadHash] (decoder : Decoder) (surface : Surface) (payload : Bytes)
    (source : Source) : Option Outcome :=
  let provenance : Provenance := ⟨source, surface.tenant, PayloadHash.digest payload, payload.length⟩
  match decoder.checkSize payload with
  | .error (.refused refusal) => some (.refused refusal provenance)
  | .error .panicked => none
  | .ok _ =>
    match decoder.read surface payload with
    | .error (.refused refusal) => some (.refused refusal provenance)
    | .error .panicked => none
    | .ok declared => some (authorize surface declared provenance)

end Decoder

end LogicalWorks.Proposal
