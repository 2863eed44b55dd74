import LogicalWorks.Token.Narrowing
import Mathlib.Algebra.BigOperators.Group.List.Basic
import Mathlib.Algebra.Order.Ring.Nat

/-! A token on the wire: compact JSON, read back under a ceiling.  The JSON library's reader is a
parameter. -/
namespace LogicalWorks.Token

def maxTokenBytes : Nat := 4096

abbrev ByteTag := { bytes : Bytes // bytes.length = 32 }

def ascii (text : String) : Bytes := text.toList.map fun char => UInt8.ofNat char.toNat

section Json

def escapeByte (byte : UInt8) : Bytes :=
  if byte = 0x22 then ascii "\\\""
  else if byte = 0x5C then ascii "\\\\"
  else if byte = 0x08 then ascii "\\b"
  else if byte = 0x09 then ascii "\\t"
  else if byte = 0x0A then ascii "\\n"
  else if byte = 0x0C then ascii "\\f"
  else if byte = 0x0D then ascii "\\r"
  else if byte < 0x20 then
    ascii "\\u00" ++ [hexDigit (byte.toNat / 16), hexDigit (byte.toNat % 16)]
  else [byte]

def escape (text : Text) : Bytes := text.flatMap escapeByte

def commas (items : List Bytes) : Bytes := List.intercalate (ascii ",") items

def encodeBytes (bytes : Bytes) : Bytes :=
  ascii "[" ++ commas (bytes.map fun byte => decimal byte.toNat) ++ ascii "]"

def Duration.encode (span : Duration) : Bytes :=
  ascii "\x7b\"secs\":" ++ decimal span.asSecs ++ ascii ",\"nanos\":" ++ decimal span.subsecNanos ++
    ascii "\x7d"

def Caveat.encode (caveat : Caveat) : Bytes :=
  ascii "\x7b\"audience\":\"" ++ escape caveat.audience ++ ascii "\",\"action\":\"" ++
    escape caveat.action ++ ascii "\",\"resource\":\"" ++ escape caveat.resource ++
      ascii "\",\"expires_at\":" ++ caveat.expiresAt.encode ++ ascii "\x7d"

def BearerToken.encode (token : BearerToken ByteTag) : Bytes :=
  ascii "\x7b\"id\":" ++ encodeBytes token.id.val ++ ascii ",\"caveats\":[" ++
    commas (token.caveats.map Caveat.encode) ++ ascii "],\"tag\":" ++ encodeBytes token.tag.val ++
      ascii "\x7d"

end Json

namespace BearerToken

def toBytes (token : BearerToken ByteTag) : Except TokenError Bytes := .ok token.encode

def fromBytes (fromSlice : Bytes → Option (BearerToken ByteTag)) (bytes : Bytes) :
    Except TokenError (BearerToken ByteTag) :=
  if maxTokenBytes < bytes.length then .error .malformed
  else
    match fromSlice bytes with
    | none => .error .malformed
    | some token => (check token.caveats).map fun _ => token

def Carried (fromSlice : Bytes → Option (BearerToken ByteTag)) (token : BearerToken ByteTag) : Prop :=
  ∃ bytes, token.toBytes = .ok bytes ∧ fromBytes fromSlice bytes = .ok token

inductive Held [KeyedHash ByteTag] (authority : Authority ByteTag)
    (fromSlice : Bytes → Option (BearerToken ByteTag)) : BearerToken ByteTag → Prop where
  | mint {audience action resource : Text} {ttl now : Duration} {draw : Option TokenId}
      {token : BearerToken ByteTag}
      (h : authority.mint audience action resource ttl now draw = .ok token) :
      Held authority fromSlice token
  | attenuate {token narrowed : BearerToken ByteTag} {extra : List Caveat}
      (held : Held authority fromSlice token) (h : token.attenuate extra = .ok narrowed) :
      Held authority fromSlice narrowed
  | decoded {bytes : Bytes} {token : BearerToken ByteTag}
      (h : fromBytes fromSlice bytes = .ok token) : Held authority fromSlice token

end BearerToken

section Length

def escapedLength (text : Text) : Nat := (text.map fun byte => (escapeByte byte).length).sum

def bytesLength (bytes : Bytes) : Nat :=
  1 + bytes.length + (bytes.map fun byte => (decimal byte.toNat).length).sum

def Caveat.encodedLength (caveat : Caveat) : Nat :=
  73 + escapedLength caveat.audience + escapedLength caveat.action +
    escapedLength caveat.resource + (decimal caveat.expiresAt.asSecs).length +
      (decimal caveat.expiresAt.subsecNanos).length

def BearerToken.encodedLength (token : BearerToken ByteTag) : Nat :=
  26 + bytesLength token.id.val + bytesLength token.tag.val + token.caveats.length +
    (token.caveats.map Caveat.encodedLength).sum

theorem length_escape (text : Text) : (escape text).length = escapedLength text := by
  unfold escape escapedLength
  exact List.length_flatMap

theorem length_commas {items : List Bytes} (h : items ≠ []) :
    (commas items).length + 1 = items.length + (items.map List.length).sum := by
  unfold commas
  induction items with
  | nil => exact absurd rfl h
  | cons item rest ih =>
    cases rest with
    | nil => simp [List.intercalate]; omega
    | cons next others =>
      have hrest := ih (by simp)
      rw [List.intercalate_cons_cons]
      simp only [List.length_append, List.length_cons, List.map_cons, List.sum_cons] at hrest ⊢
      have hcomma : (ascii ",").length = 1 := rfl
      omega

theorem length_encodeBytes {bytes : Bytes} (h : bytes ≠ []) :
    (encodeBytes bytes).length = bytesLength bytes := by
  have hitems : (bytes.map fun byte => decimal byte.toNat) ≠ [] := by simpa using h
  have hcommas := length_commas hitems
  have hopen : (ascii "[").length = 1 := rfl
  have hclose : (ascii "]").length = 1 := rfl
  simp only [List.length_map, List.map_map, Function.comp_def] at hcommas
  unfold encodeBytes bytesLength
  simp only [List.length_append, hopen, hclose]
  omega

theorem Caveat.length_encode (caveat : Caveat) : caveat.encode.length = caveat.encodedLength := by
  have haudience : (ascii "\x7b\"audience\":\"").length = 13 := rfl
  have haction : (ascii "\",\"action\":\"").length = 12 := rfl
  have hresource : (ascii "\",\"resource\":\"").length = 14 := rfl
  have hexpires : (ascii "\",\"expires_at\":").length = 15 := rfl
  have hsecs : (ascii "\x7b\"secs\":").length = 8 := rfl
  have hnanos : (ascii ",\"nanos\":").length = 9 := rfl
  have hclose : (ascii "\x7d").length = 1 := rfl
  unfold encode Duration.encode encodedLength
  simp only [List.length_append, length_escape, haudience, haction, hresource, hexpires, hsecs,
    hnanos, hclose]
  omega

theorem BearerToken.length_encode {token : BearerToken ByteTag} (h : token.caveats ≠ []) :
    token.encode.length = token.encodedLength := by
  have hid : token.id.val ≠ [] := by
    intro hempty
    have hlength := token.id.property
    rw [hempty] at hlength
    cases hlength
  have htag : token.tag.val ≠ [] := by
    intro hempty
    have hlength := token.tag.property
    rw [hempty] at hlength
    cases hlength
  have hitems : token.caveats.map Caveat.encode ≠ [] := by simpa using h
  have hcommas := length_commas hitems
  simp only [List.length_map, List.map_map, Function.comp_def, Caveat.length_encode] at hcommas
  have hopen : (ascii "\x7b\"id\":").length = 6 := rfl
  have hcaveats : (ascii ",\"caveats\":[").length = 12 := rfl
  have hmiddle : (ascii "],\"tag\":").length = 8 := rfl
  have hclose : (ascii "\x7d").length = 1 := rfl
  have hsum : (token.caveats.map fun caveat => caveat.encodedLength).sum =
      (token.caveats.map Caveat.encodedLength).sum := rfl
  unfold encode encodedLength
  simp only [List.length_append, length_encodeBytes hid, length_encodeBytes htag, hopen, hcaveats,
    hmiddle, hclose]
  omega

end Length

namespace BearerToken

variable {fromSlice : Bytes → Option (BearerToken ByteTag)} {token : BearerToken ByteTag}

theorem fromBytes_eq_ok {bytes : Bytes} :
    fromBytes fromSlice bytes = .ok token ↔ bytes.length ≤ maxTokenBytes ∧
      fromSlice bytes = some token ∧ check token.caveats = .ok () := by
  unfold fromBytes
  by_cases hlong : maxTokenBytes < bytes.length
  · rw [if_pos hlong]
    constructor
    · intro h
      cases h
    · rintro ⟨hshort, -⟩
      omega
  · rw [if_neg hlong]
    cases hread : fromSlice bytes with
    | none => simp
    | some read =>
      dsimp only
      cases hcheck : check read.caveats with
      | error cause =>
        constructor
        · intro h
          cases h
        · rintro ⟨-, heq, hvalid⟩
          cases heq
          rw [hcheck] at hvalid
          cases hvalid
      | ok checked =>
        constructor
        · intro h
          cases h
          exact ⟨by omega, rfl, hcheck⟩
        · rintro ⟨-, heq, -⟩
          cases heq
          rfl

theorem request_again {audience action resource : Text} {request : Request}
    (h : Request.new audience action resource = .ok request) :
    Request.new request.audience request.action request.resource = .ok request := by
  have hparts := h
  unfold Request.new at hparts
  simp only [bind_eq_ok] at hparts
  obtain ⟨_, -, _, -, _, -, hrequest⟩ := hparts
  cases hrequest
  exact h

theorem check_new {audience action resource : Text} {expiresAt : Duration} {caveat : Caveat}
    (h : Caveat.new audience action resource expiresAt = .ok caveat) : caveat.check = .ok () := by
  unfold Caveat.new at h
  cases hrequest : Request.new audience action resource with
  | error cause =>
    rw [hrequest] at h
    cases h
  | ok request =>
    rw [hrequest] at h
    cases h
    have hagain := request_again hrequest
    unfold Caveat.check Caveat.new Caveat.audience Caveat.action Caveat.resource
    rw [hagain]
    rfl

variable [KeyedHash ByteTag] {authority : Authority ByteTag}

theorem mint_caveats {audience action resource : Text} {ttl now : Duration}
    {draw : Option TokenId}
    (h : authority.mint audience action resource ttl now draw = .ok token) :
    ∃ caveat, token.caveats = [caveat] ∧ caveat.check = .ok () := by
  unfold Authority.mint at h
  obtain ⟨caveat, hnew, hrest⟩ := bind_eq_ok.mp h
  cases draw with
  | none => cases hrest
  | some id =>
    obtain ⟨tag, -, htoken⟩ := bind_eq_ok.mp hrest
    cases htoken
    exact ⟨caveat, rfl, check_new hnew⟩

theorem Held.check_eq_ok (held : Held authority fromSlice token) : check token.caveats = .ok () := by
  induction held with
  | mint hmint =>
    obtain ⟨caveat, hcaveats, hcheck⟩ := mint_caveats hmint
    rw [hcaveats]
    refine Token.check_eq_ok.mpr ⟨List.cons_ne_nil _ _, by unfold maxCaveats; simp, ?_⟩
    intro other hother
    rw [List.mem_singleton.mp hother]
    exact hcheck
  | attenuate held hattenuate ih =>
    obtain ⟨hsome, -, hall⟩ := Token.check_eq_ok.mp ih
    obtain ⟨-, -, hcaveats, -, hroom, hextra⟩ := attenuate_parts hattenuate
    rw [hcaveats]
    refine Token.check_eq_ok.mpr ⟨List.append_ne_nil_of_left_ne_nil hsome _, ?_, ?_⟩
    · rw [List.length_append]
      exact hroom
    · intro caveat hmem
      rcases List.mem_append.mp hmem with hkept | hadded
      · exact hall caveat hkept
      · exact hextra caveat hadded
  | decoded hdecoded => exact (fromBytes_eq_ok.mp hdecoded).2.2

/-- A token someone holds is valid, and carried exactly while its compact JSON fits under the
ceiling. -/
theorem carried_iff (held : Held authority fromSlice token)
    (hround : fromSlice token.encode = some token) :
    check token.caveats = .ok () ∧
      (Carried fromSlice token ↔ token.encodedLength ≤ maxTokenBytes) := by
  have hvalid := held.check_eq_ok
  have hsome := (Token.check_eq_ok.mp hvalid).1
  refine ⟨hvalid, ?_⟩
  unfold Carried toBytes
  constructor
  · rintro ⟨bytes, hbytes, hread⟩
    cases hbytes
    rw [← length_encode hsome]
    exact (fromBytes_eq_ok.mp hread).1
  · intro hfits
    refine ⟨token.encode, rfl, fromBytes_eq_ok.mpr ⟨?_, hround, hvalid⟩⟩
    rw [length_encode hsome]
    exact hfits

end BearerToken

section Wide

@[reducible] def idleHash : KeyedHash ByteTag where
  keyed := fun key _ => key
  framed := fun _ => ⟨List.replicate 32 0, rfl⟩

def zeroTag : ByteTag := ⟨List.replicate 32 0, rfl⟩

def zeroAuthority : Authority ByteTag := ⟨zeroTag⟩

def oneSecond : Duration := ⟨10 ^ 9, by omega⟩

def wideCaveat : Caveat :=
  ⟨⟨List.replicate 128 0x61, List.replicate 128 0x61, slash :: List.replicate 127 0x61⟩, oneSecond⟩

def wide (count : Nat) : BearerToken ByteTag :=
  ⟨zeroTag, List.replicate count wideCaveat, zeroTag⟩

theorem wide_minted :
    @Authority.mint ByteTag idleHash zeroAuthority wideCaveat.audience wideCaveat.action
      wideCaveat.resource oneSecond ⟨0, by omega⟩ (some zeroTag) = .ok (wide 1) := by
  decide +kernel

theorem wide_attenuated :
    @BearerToken.attenuate ByteTag idleHash (wide 1) (List.replicate 15 wideCaveat) =
      .ok (wide 16) := by
  decide +kernel

namespace BearerToken

/-- One caveat at its ceiling is carried. -/
theorem carried_wide : check (wide 1).caveats = .ok () ∧
    (Carried (fun bytes => if bytes = (wide 1).encode then some (wide 1) else none) (wide 1) ↔
      (wide 1).encodedLength ≤ maxTokenBytes) :=
  @carried_iff (fun bytes => if bytes = (wide 1).encode then some (wide 1) else none) (wide 1)
    idleHash zeroAuthority (@Held.mint idleHash _ _ _ _ _ _ _ _ _ wide_minted)
    (if_pos rfl)

/-- Sixteen caveats at their ceiling, minted and attenuated, are not read back. -/
theorem wide_not_carried : ¬ ∀ (hash : KeyedHash ByteTag) (authority : Authority ByteTag)
    (fromSlice : Bytes → Option (BearerToken ByteTag)) (token : BearerToken ByteTag),
      fromSlice token.encode = some token → @Held hash authority fromSlice token →
        Carried fromSlice token := by
  intro h
  have hminted : @Held idleHash zeroAuthority (fun _ => some (wide 16)) (wide 1) :=
    @Held.mint idleHash _ _ _ _ _ _ _ _ _ wide_minted
  obtain ⟨bytes, hbytes, hread⟩ := h idleHash zeroAuthority (fun _ => some (wide 16)) (wide 16) rfl
    (@Held.attenuate idleHash _ _ _ _ _ hminted wide_attenuated)
  cases hbytes
  have hshort := (fromBytes_eq_ok.mp hread).1
  have hlong : maxTokenBytes < (wide 16).encode.length := by decide +kernel
  exact absurd hshort (Nat.not_le.mpr hlong)

end BearerToken

end Wide

end LogicalWorks.Token
