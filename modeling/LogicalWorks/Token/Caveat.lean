import LogicalWorks.Lib.Bytes
import Mathlib.Data.List.Infix

/-! Requests and caveats: who may do what where, and until when.  A text is its UTF-8 bytes,
a duration its whole nanoseconds. -/
namespace LogicalWorks.Token

abbrev Text := Bytes

def maxCaveats : Nat := 16
def maxTextLen : Nat := 128
def maxRevoked : Nat := 1024
def maxTrace : Nat := 8

structure Duration where
  nanos : Nat
  bounded : nanos ≤ (2 ^ 64 - 1) * 10 ^ 9 + 999999999
  deriving DecidableEq

namespace Duration

def asSecs (span : Duration) : Nat := span.nanos / 10 ^ 9

def subsecNanos (span : Duration) : Nat := span.nanos % 10 ^ 9

def saturatingAdd (left right : Duration) : Duration where
  nanos := min (left.nanos + right.nanos) ((2 ^ 64 - 1) * 10 ^ 9 + 999999999)
  bounded := Nat.min_le_right _ _

theorem ext_parts {left right : Duration} (hsecs : left.asSecs = right.asSecs)
    (hnanos : left.subsecNanos = right.subsecNanos) : left = right := by
  cases left
  cases right
  unfold asSecs at hsecs
  unfold subsecNanos at hnanos
  simp only [Duration.mk.injEq]
  simp only at hsecs hnanos
  omega

end Duration

inductive Field where
  | audience
  | action
  | resource
  deriving DecidableEq, Repr

inductive TokenError where
  | emptyCaveats
  | tooManyCaveats (count limit : Nat)
  | textTooLong (field : Field) (len limit : Nat)
  | badText (field : Field)
  | widensAuthority
  | tampered
  | expired (expiredAt now : Duration)
  | revoked
  | revocationFull
  | malformed
  | entropy
  deriving DecidableEq

def validText (text : Text) (field : Field) : Except TokenError Unit :=
  if text.length = 0 ∨ maxTextLen < text.length then
    .error (.textTooLong field text.length maxTextLen)
  else if text.all (fun byte => 0x21 ≤ byte ∧ byte ≤ 0x7E) then .ok ()
  else .error (.badText field)

def slash : UInt8 := 0x2F

def validResource (resource : Text) : Except TokenError Unit :=
  match validText resource .resource with
  | .error refusal => .error refusal
  | .ok _ =>
    let rooted := resource.head? = some slash
    let noEmpty := ¬ [slash, slash] <:+: resource
    let noTrailing := resource.length = 1 ∨ resource.getLast? ≠ some slash
    if rooted ∧ noEmpty ∧ noTrailing then .ok () else .error (.badText .resource)

def underScope (candidate scope : Text) : Bool :=
  if candidate = scope then true
  else if scope = [slash] then candidate.head? = some slash
  else
    scope.length < candidate.length && scope.isPrefixOf candidate &&
      candidate[scope.length]? = some slash

structure Request where
  audience : Text
  action : Text
  resource : Text
  deriving DecidableEq

def Request.new (audience action resource : Text) : Except TokenError Request := do
  validText audience .audience
  validText action .action
  validResource resource
  .ok ⟨audience, action, resource⟩

structure Caveat where
  request : Request
  expiresAt : Duration
  deriving DecidableEq

namespace Caveat

def audience (caveat : Caveat) : Text := caveat.request.audience

def action (caveat : Caveat) : Text := caveat.request.action

def resource (caveat : Caveat) : Text := caveat.request.resource

def new (audience action resource : Text) (expiresAt : Duration) : Except TokenError Caveat :=
  (Request.new audience action resource).map fun request => ⟨request, expiresAt⟩

end Caveat

def lengthPrefixed (part : Text) : Except TokenError Bytes :=
  if part.length < 2 ^ 64 then .ok (Bytes.littleEndian 8 part.length ++ part)
  else .error .malformed

def canonicalCaveat (caveat : Caveat) : Except TokenError Bytes := do
  let audience ← lengthPrefixed caveat.audience
  let action ← lengthPrefixed caveat.action
  let resource ← lengthPrefixed caveat.resource
  .ok (audience ++ action ++ resource ++ Bytes.littleEndian 8 caveat.expiresAt.asSecs ++
    Bytes.littleEndian 4 caveat.expiresAt.subsecNanos)

theorem lengthPrefixed_inj {left right : Text} {leftBytes rightBytes leftRest rightRest : Bytes}
    (hleft : lengthPrefixed left = .ok leftBytes) (hright : lengthPrefixed right = .ok rightBytes)
    (h : leftBytes ++ leftRest = rightBytes ++ rightRest) : left = right ∧ leftRest = rightRest := by
  unfold lengthPrefixed at hleft hright
  split at hleft
  · rename_i hl
    split at hright
    · rename_i hr
      cases hleft
      cases hright
      rw [List.append_assoc, List.append_assoc] at h
      obtain ⟨hlength, hrest⟩ := List.append_inj h (by simp)
      have hsame : left.length = right.length := by
        rw [← @Bytes.ofLittleEndian_littleEndian 8 left.length hl, hlength,
          @Bytes.ofLittleEndian_littleEndian 8 right.length hr]
      exact List.append_inj hrest hsame
    · cases hright
  · cases hleft

theorem canonicalCaveat_parts {caveat : Caveat} {bytes : Bytes}
    (h : canonicalCaveat caveat = .ok bytes) :
    ∃ audience action resource, lengthPrefixed caveat.audience = .ok audience ∧
      lengthPrefixed caveat.action = .ok action ∧
      lengthPrefixed caveat.resource = .ok resource ∧
      bytes = audience ++ (action ++ (resource ++
        (Bytes.littleEndian 8 caveat.expiresAt.asSecs ++
          Bytes.littleEndian 4 caveat.expiresAt.subsecNanos))) := by
  unfold canonicalCaveat at h
  cases haudience : lengthPrefixed caveat.audience with
  | error refusal => rw [haudience] at h; cases h
  | ok audience =>
    cases haction : lengthPrefixed caveat.action with
    | error refusal => rw [haudience, haction] at h; cases h
    | ok action =>
      cases hresource : lengthPrefixed caveat.resource with
      | error refusal => rw [haudience, haction, hresource] at h; cases h
      | ok resource =>
        rw [haudience, haction, hresource] at h
        cases h
        exact ⟨audience, action, resource, rfl, rfl, rfl, by simp only [List.append_assoc]⟩

theorem asSecs_lt (span : Duration) : span.asSecs < 256 ^ 8 := by
  have hbounded := span.bounded
  unfold Duration.asSecs
  omega

theorem subsecNanos_lt (span : Duration) : span.subsecNanos < 256 ^ 4 := by
  unfold Duration.subsecNanos
  omega

theorem canonicalCaveat_inj {left right : Caveat} {bytes : Bytes}
    (hleft : canonicalCaveat left = .ok bytes) (hright : canonicalCaveat right = .ok bytes) :
    left = right := by
  obtain ⟨la, lb, lc, hla, hlb, hlc, hlbytes⟩ := canonicalCaveat_parts hleft
  obtain ⟨ra, rb, rc, hra, hrb, hrc, hrbytes⟩ := canonicalCaveat_parts hright
  rw [hlbytes] at hrbytes
  obtain ⟨haudience, hrest⟩ := lengthPrefixed_inj hla hra hrbytes
  obtain ⟨haction, hrest⟩ := lengthPrefixed_inj hlb hrb hrest
  obtain ⟨hresource, hrest⟩ := lengthPrefixed_inj hlc hrc hrest
  obtain ⟨hsecs, hnanos⟩ := List.append_inj hrest (by simp)
  have hexpiry : left.expiresAt = right.expiresAt := by
    refine Duration.ext_parts ?_ ?_
    · rw [← Bytes.ofLittleEndian_littleEndian (asSecs_lt left.expiresAt), hsecs,
        Bytes.ofLittleEndian_littleEndian (asSecs_lt right.expiresAt)]
    · rw [← Bytes.ofLittleEndian_littleEndian (subsecNanos_lt left.expiresAt), hnanos,
        Bytes.ofLittleEndian_littleEndian (subsecNanos_lt right.expiresAt)]
  have hrequest : left.request = right.request := by
    unfold Caveat.audience at haudience
    unfold Caveat.action at haction
    unfold Caveat.resource at hresource
    cases hl : left.request
    cases hr : right.request
    rw [hl, hr] at haudience haction hresource
    simp only [Request.mk.injEq]
    exact ⟨haudience, haction, hresource⟩
  cases left
  cases right
  simp only [Caveat.mk.injEq]
  exact ⟨hrequest, hexpiry⟩

end LogicalWorks.Token
