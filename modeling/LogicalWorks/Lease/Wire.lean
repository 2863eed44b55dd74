import LogicalWorks.Lib.Checks
import LogicalWorks.Task.Digests

/-! The frames of the grant channel: one tagged request, and one tagged reply bound to the
request's nonce.  The keyed tag is a parameter. -/
namespace LogicalWorks.Lease

open Journal LogicalWorks.Task

def requestMagic : Bytes := utf8 "LGLQ"

def replyMagic : Bytes := utf8 "LGLR"

def maxName : Nat := 256

def headerLen : Nat := 4 + 1 + 16 + 2

def bodyLen : Nat := 4 + 16 + 8

def replyLen : Nat := bodyLen + headBytes

inductive Op where
  | check
  | acquire
  deriving DecidableEq, Repr

def Op.code : Op → UInt8
  | .check => 1
  | .acquire => 2

inductive Refusal where
  | io
  | short
  | magic
  | op
  | oversize
  | utf8
  | tag
  | nonce
  | entropy
  | zeroTimeout
  deriving DecidableEq, Repr

def Refusal.reason : Refusal → String
  | .io => "the socket failed, timed out or closed early"
  | .short => "the frame is shorter than its layout"
  | .magic => "the frame is not a lease-channel frame"
  | .op => "the request asks no known question"
  | .oversize => "the holder name is longer than 256 bytes"
  | .utf8 => "the holder name is not UTF-8"
  | .tag => "the frame's keyed tag does not verify"
  | .nonce => "the reply answers another question"
  | .entropy => "the OS had no entropy for a nonce"
  | .zeroTimeout => "a zero timeout bounds nothing"

structure Nonce where
  bytes : Bytes
  length_bytes : bytes.length = 16
  deriving DecidableEq, Repr

structure WireKey where
  tag : Bytes → Digest

def field (count : Nat) (bytes : Bytes) (place : Nat) : Except Refusal Bytes :=
  match Bytes.slice bytes place (place + count) with
  | none => .error .short
  | some found => .ok found

/-- Read exactly so many bytes, and leave what stands behind them. -/
def fill (count : Nat) (stream : Bytes) : Except Refusal (Bytes × Bytes) :=
  if count ≤ stream.length then .ok (stream.take count, stream.drop count) else .error .io

def refuseIf (failed : Bool) (refusal : Refusal) : Except Refusal Unit :=
  if failed then .error refusal else .ok ()

def WireKey.verifies (key : WireKey) (frame tag : Bytes) : Except Refusal Unit := do
  let tag ← field headBytes tag 0
  refuseIf (key.tag frame ≠ Digest.fromBytes tag) .tag

def fromUtf8 (bytes : Bytes) : Option String := String.fromUTF8? ⟨bytes.toArray⟩

structure Request where
  op : Op
  nonce : Bytes
  name : String
  deriving DecidableEq, Repr

def requestBody (op : Op) (nonce : Nonce) (name : String) : Bytes :=
  requestMagic ++ [op.code] ++ nonce.bytes ++ Bytes.littleEndian 2 (utf8 name).length ++ utf8 name

def WireKey.tagged (key : WireKey) (body : Bytes) : Bytes := body ++ (key.tag body).bytes

def encodeRequest (key : WireKey) (op : Op) (nonce : Nonce) (name : String) :
    Except Refusal Bytes :=
  if maxName < (utf8 name).length then .error .oversize
  else .ok (key.tagged (requestBody op nonce name))

def readOp : Bytes → Except Refusal Op
  | [1] => .ok .check
  | [2] => .ok .acquire
  | _ => .error .op

def readName (name : Bytes) : Except Refusal String :=
  match fromUtf8 name with
  | none => .error .utf8
  | some name => .ok name

def readRequest (key : WireKey) (stream : Bytes) : Except Refusal Request := do
  let (header, stream) ← fill headerLen stream
  let magic ← field 4 header 0
  refuseIf (magic ≠ requestMagic) .magic
  let op ← readOp (← field 1 header 4)
  let length ← field 2 header 21
  refuseIf (maxName < Bytes.ofLittleEndian length) .oversize
  let (rest, _) ← fill (Bytes.ofLittleEndian length + headBytes) stream
  let name := rest.take (Bytes.ofLittleEndian length)
  key.verifies (header ++ name) (rest.drop (Bytes.ofLittleEndian length))
  let name ← readName name
  let nonce ← field 16 header 5
  .ok ⟨op, nonce, name⟩

def replyBody (nonce : Bytes) (epoch : UInt64) : Bytes := replyMagic ++ nonce ++ u64LE epoch

def encodeReply (key : WireKey) (nonce : Bytes) (epoch : UInt64) : Bytes :=
  key.tagged (replyBody nonce epoch)

def decodeReply (key : WireKey) (nonce : Nonce) (frame : Bytes) : Except Refusal UInt64 := do
  refuseIf (frame.length < bodyLen) .short
  let body := frame.take bodyLen
  let magic ← field 4 body 0
  refuseIf (magic ≠ replyMagic) .magic
  key.verifies body (frame.drop bodyLen)
  let answered ← field 16 body 4
  refuseIf (answered ≠ nonce.bytes) .nonce
  let epoch ← field 8 body 20
  .ok (UInt64.ofNat (Bytes.ofLittleEndian epoch))

variable {key : WireKey}

theorem field_ok {count place : Nat} {bytes part : Bytes} (h : field count bytes place = .ok part) :
    part.length = count ∧ ∃ left right, bytes = left ++ part ++ right ∧ left.length = place := by
  unfold field at h
  cases hslice : Bytes.slice bytes place (place + count) with
  | none =>
    rw [hslice] at h
    cases h
  | some found =>
    rw [hslice] at h
    cases h
    obtain ⟨left, right, hbytes, hleft, hlength⟩ := Bytes.slice_eq_some hslice
    exact ⟨by omega, left, right, hbytes, hleft⟩

theorem field_middle {count place : Nat} {left middle right : Bytes} (hleft : left.length = place)
    (hmiddle : middle.length = count) : field count (left ++ middle ++ right) place = .ok middle := by
  unfold field
  rw [← hleft, ← hmiddle, Bytes.slice_append_middle]

theorem fill_ok {count : Nat} {stream first rest : Bytes} (h : fill count stream = .ok (first, rest)) :
    stream = first ++ rest ∧ first.length = count := by
  unfold fill at h
  split at h
  · rename_i hroom
    cases h
    exact ⟨(List.take_append_drop count stream).symm, List.length_take_of_le hroom⟩
  · cases h

theorem fill_append {count : Nat} {first rest : Bytes} (h : first.length = count) :
    fill count (first ++ rest) = .ok (first, rest) := by
  unfold fill
  rw [if_pos (by rw [List.length_append]; omega), ← h, List.take_left, List.drop_left]

theorem refuseIf_ok {failed : Bool} {refusal : Refusal} :
    refuseIf failed refusal = .ok () ↔ failed = false := by
  cases failed with
  | false => exact iff_of_true rfl rfl
  | true => exact iff_of_false (fun h => by cases h) (fun h => by cases h)

theorem prefix_of_field {count : Nat} {bytes part : Bytes} (h : field count bytes 0 = .ok part) :
    part <+: bytes := by
  obtain ⟨-, left, right, hbytes, hleft⟩ := field_ok h
  rw [List.length_eq_zero_iff.mp hleft, List.nil_append] at hbytes
  exact ⟨right, hbytes.symm⟩

theorem verifies_ok {frame tag : Bytes} (h : key.verifies frame tag = .ok ()) :
    (key.tag frame).bytes <+: tag := by
  obtain ⟨part, hpart, h⟩ := bind_eq_ok.mp h
  have hsame : key.tag frame = Digest.fromBytes part := by
    simpa using refuseIf_ok.mp h
  rw [hsame, Digest.bytes_fromBytes (field_ok hpart).1]
  exact prefix_of_field hpart

theorem verifies_tag (frame rest : Bytes) :
    key.verifies frame ((key.tag frame).bytes ++ rest) = .ok () := by
  have hfield : field headBytes ((key.tag frame).bytes ++ rest) 0 = .ok (key.tag frame).bytes :=
    @field_middle headBytes 0 [] (key.tag frame).bytes rest rfl (key.tag frame).length_bytes
  unfold WireKey.verifies
  rw [hfield]
  change refuseIf (key.tag frame ≠ Digest.fromBytes (key.tag frame).bytes) _ = _
  rw [refuseIf_ok, Digest.fromBytes_bytes]
  simp

theorem toList_loop (bytes : ByteArray) (place : Nat) (read : List UInt8) :
    ByteArray.toList.loop bytes place read = read.reverse ++ bytes.data.toList.drop place := by
  have hsize : bytes.data.toList.length = bytes.size := Array.length_toList
  fun_induction ByteArray.toList.loop bytes place read with
  | case1 place read hmore ih =>
    have hplace : place < bytes.data.toList.length := by omega
    have hget : bytes.get! place = bytes.data.toList[place] := by
      cases bytes with
      | mk data => exact getElem!_pos data place (by rwa [Array.length_toList] at hplace)
    rw [ih, List.reverse_cons, List.append_assoc, List.singleton_append, hget,
      List.drop_eq_getElem_cons hplace]
  | case2 place read hdone =>
    rw [List.drop_eq_nil_of_le (by omega), List.append_nil]

theorem readName_utf8 (name : String) : readName (utf8 name) = .ok name := by
  have hbytes : (⟨(utf8 name).toArray⟩ : ByteArray) = name.toByteArray := by
    have hlist : utf8 name = name.toByteArray.data.toList := by
      unfold utf8 ByteArray.toList
      rw [toList_loop]
      rfl
    rw [hlist]
  unfold readName fromUtf8 String.fromUTF8?
  rw [hbytes, dif_pos name.isValidUTF8]
  rfl

theorem readRequest_ok {stream : Bytes} {request : Request}
    (h : readRequest key stream = .ok request) :
    ∃ body, requestMagic <+: body ∧ key.tagged body <+: stream := by
  unfold readRequest at h
  obtain ⟨⟨header, behind⟩, hheader, h⟩ := bind_eq_ok.mp h
  obtain ⟨magic, hmagic, h⟩ := bind_eq_ok.mp h
  obtain ⟨_, hsame, h⟩ := bind_eq_ok.mp h
  obtain ⟨code, -, h⟩ := bind_eq_ok.mp h
  obtain ⟨op, -, h⟩ := bind_eq_ok.mp h
  obtain ⟨length, -, h⟩ := bind_eq_ok.mp h
  obtain ⟨_, -, h⟩ := bind_eq_ok.mp h
  obtain ⟨⟨rest, others⟩, hrest, h⟩ := bind_eq_ok.mp h
  obtain ⟨_, hverifies, -⟩ := bind_eq_ok.mp h
  have hopens : magic = requestMagic := by simpa using refuseIf_ok.mp hsame
  obtain ⟨tail, htail⟩ := verifies_ok hverifies
  refine ⟨header ++ rest.take (Bytes.ofLittleEndian length), ?_, tail ++ others, ?_⟩
  · rw [← hopens]
    exact (prefix_of_field hmagic).trans (List.prefix_append _ _)
  · rw [(fill_ok hheader).1, (fill_ok hrest).1, WireKey.tagged]
    conv => rhs; rw [← List.take_append_drop (Bytes.ofLittleEndian length) rest, ← htail]
    simp only [List.append_assoc]

theorem decodeReply_ok {nonce : Nonce} {frame : Bytes} {epoch : UInt64}
    (h : decodeReply key nonce frame = .ok epoch) :
    ∃ body, replyMagic <+: body ∧ key.tagged body <+: frame := by
  unfold decodeReply at h
  obtain ⟨_, -, h⟩ := bind_eq_ok.mp h
  obtain ⟨magic, hmagic, h⟩ := bind_eq_ok.mp h
  obtain ⟨_, hsame, h⟩ := bind_eq_ok.mp h
  obtain ⟨_, hverifies, -⟩ := bind_eq_ok.mp h
  have hopens : magic = replyMagic := by simpa using refuseIf_ok.mp hsame
  obtain ⟨tail, htail⟩ := verifies_ok hverifies
  refine ⟨frame.take bodyLen, ?_, tail, ?_⟩
  · rw [← hopens]
    exact prefix_of_field hmagic
  · rw [WireKey.tagged, List.append_assoc, htail, List.take_append_drop]

theorem length_requestMagic : requestMagic.length = 4 := by decide +kernel

theorem length_replyMagic : replyMagic.length = 4 := by decide +kernel

theorem requestMagic_ne_replyMagic : requestMagic ≠ replyMagic := by decide +kernel

theorem readOp_code (op : Op) : readOp [op.code] = .ok op := by
  cases op <;> rfl

theorem refuseIf_false {failed : Bool} (refusal : Refusal) (h : failed = false) :
    refuseIf failed refusal = .ok () := refuseIf_ok.mpr h

def requestHeader (op : Op) (nonce : Nonce) (name : String) : Bytes :=
  requestMagic ++ [op.code] ++ nonce.bytes ++ Bytes.littleEndian 2 (utf8 name).length

theorem length_requestHeader (op : Op) (nonce : Nonce) (name : String) :
    (requestHeader op nonce name).length = headerLen := by
  simp only [requestHeader, List.length_append, length_requestMagic, nonce.length_bytes,
    Bytes.length_littleEndian, List.length_singleton]
  rfl

theorem field_requestHeader (op : Op) (nonce : Nonce) (name : String) :
    field 4 (requestHeader op nonce name) 0 = .ok requestMagic ∧
      field 1 (requestHeader op nonce name) 4 = .ok [op.code] ∧
      field 16 (requestHeader op nonce name) 5 = .ok nonce.bytes ∧
      field 2 (requestHeader op nonce name) 21 =
        .ok (Bytes.littleEndian 2 (utf8 name).length) := by
  refine ⟨?_, ?_, ?_, ?_⟩
  · have hmiddle := @field_middle 4 0 [] requestMagic
      ([op.code] ++ nonce.bytes ++ Bytes.littleEndian 2 (utf8 name).length) rfl
      length_requestMagic
    simpa only [List.nil_append, List.append_assoc, requestHeader] using hmiddle
  · have hmiddle := @field_middle 1 4 requestMagic [op.code]
      (nonce.bytes ++ Bytes.littleEndian 2 (utf8 name).length) length_requestMagic rfl
    simpa only [List.append_assoc, requestHeader] using hmiddle
  · have hmiddle := @field_middle 16 5 (requestMagic ++ [op.code]) nonce.bytes
      (Bytes.littleEndian 2 (utf8 name).length) (by simp [length_requestMagic])
      nonce.length_bytes
    simpa only [List.append_assoc, requestHeader] using hmiddle
  · have hmiddle := @field_middle 2 21 (requestMagic ++ [op.code] ++ nonce.bytes)
      (Bytes.littleEndian 2 (utf8 name).length) []
      (by simp [length_requestMagic, nonce.length_bytes]) (Bytes.length_littleEndian _ _)
    simpa only [List.append_assoc, List.append_nil, requestHeader] using hmiddle

theorem readRequest_encoded {op : Op} {nonce : Nonce} {name : String} {frame : Bytes}
    (h : encodeRequest key op nonce name = .ok frame) (rest : Bytes) :
    readRequest key (frame ++ rest) = .ok ⟨op, nonce.bytes, name⟩ := by
  unfold encodeRequest at h
  split at h
  · cases h
  · rename_i hroom
    cases h
    generalize hbody : requestBody op nonce name = body
    have hsplit : body = requestHeader op nonce name ++ utf8 name := hbody.symm
    have hstream : key.tagged body ++ rest = requestHeader op nonce name ++
        ((utf8 name ++ (key.tag body).bytes) ++ rest) := by
      rw [WireKey.tagged, hsplit]
      simp only [List.append_assoc]
    obtain ⟨hmagic, hop, hnonce, hsize⟩ := field_requestHeader op nonce name
    have hlength : Bytes.ofLittleEndian (Bytes.littleEndian 2 (utf8 name).length) =
        (utf8 name).length := by
      refine Bytes.ofLittleEndian_littleEndian ?_
      unfold maxName at hroom
      omega
    have hfill : fill ((utf8 name).length + headBytes)
        ((utf8 name ++ (key.tag body).bytes) ++ rest) =
          .ok (utf8 name ++ (key.tag body).bytes, rest) := by
      refine fill_append ?_
      rw [List.length_append, (key.tag body).length_bytes]
    have hverifies : key.verifies (requestHeader op nonce name ++ utf8 name)
        (key.tag body).bytes = .ok () := by
      have htag := @verifies_tag key body []
      rw [List.append_nil] at htag
      rw [← hsplit]
      exact htag
    unfold readRequest
    rw [hstream, fill_append (length_requestHeader op nonce name)]
    simp only [bind, Except.bind, hmagic, hop, hnonce, hsize, readOp_code, hlength, hfill,
      List.take_left, List.drop_left, hverifies, readName_utf8, ne_eq, not_true_eq_false,
      decide_false, hroom, refuseIf_false]

theorem decodeReply_encoded (nonce : Nonce) {asked : Bytes} (h : asked.length = 16)
    (epoch : UInt64) (rest : Bytes) :
    decodeReply key nonce (encodeReply key asked epoch ++ rest) =
      if asked = nonce.bytes then .ok epoch else .error .nonce := by
  have hlength : (replyBody asked epoch).length = bodyLen := by
    simp only [replyBody, List.length_append, length_replyMagic, h, u64LE,
      Bytes.length_littleEndian]
    rfl
  have hframe : encodeReply key asked epoch ++ rest =
      replyBody asked epoch ++ ((key.tag (replyBody asked epoch)).bytes ++ rest) := by
    rw [encodeReply, WireKey.tagged, List.append_assoc]
  have htake : (encodeReply key asked epoch ++ rest).take bodyLen = replyBody asked epoch := by
    rw [hframe, ← hlength, List.take_left]
  have hdrop : (encodeReply key asked epoch ++ rest).drop bodyLen =
      (key.tag (replyBody asked epoch)).bytes ++ rest := by
    rw [hframe, ← hlength, List.drop_left]
  have hroom : ¬ (encodeReply key asked epoch ++ rest).length < bodyLen := by
    rw [hframe, List.length_append, hlength]
    omega
  have hmagic : field 4 (replyBody asked epoch) 0 = .ok replyMagic := by
    have hmiddle := @field_middle 4 0 [] replyMagic (asked ++ u64LE epoch) rfl length_replyMagic
    simpa only [List.nil_append, List.append_assoc, replyBody] using hmiddle
  have hanswered : field 16 (replyBody asked epoch) 4 = .ok asked :=
    field_middle length_replyMagic h
  have hepoch : field 8 (replyBody asked epoch) 20 = .ok (u64LE epoch) := by
    have hmiddle := @field_middle 8 20 (replyMagic ++ asked) (u64LE epoch) []
      (by simp [length_replyMagic, h]) (Bytes.length_littleEndian _ _)
    simpa only [List.append_nil, replyBody] using hmiddle
  have hnumber : UInt64.ofNat (Bytes.ofLittleEndian (u64LE epoch)) = epoch := by
    rw [u64LE, Bytes.ofLittleEndian_littleEndian (by exact epoch.toNat_lt), UInt64.ofNat_toNat]
  unfold decodeReply
  simp only [bind, Except.bind, htake, hdrop, hroom, hmagic, hanswered, hepoch, verifies_tag,
    ne_eq, not_true_eq_false, decide_false, refuseIf_false, hnumber]
  by_cases hsame : asked = nonce.bytes
  · rw [if_pos hsame, refuseIf_false _ (by simp [hsame])]
  · rw [if_neg hsame]
    simp [refuseIf, hsame]

theorem request_ne_reply {body nonce : Bytes} {epoch : UInt64} (h : requestMagic <+: body) :
    key.tagged body ≠ encodeReply key nonce epoch := by
  intro hsame
  have hrequest : requestMagic <+: key.tagged body := h.trans (List.prefix_append _ _)
  have hreply : replyMagic <+: key.tagged body := by
    rw [hsame, encodeReply, WireKey.tagged, replyBody, List.append_assoc, List.append_assoc]
    exact List.prefix_append _ _
  have hlength : requestMagic.length = replyMagic.length := by
    rw [length_requestMagic, length_replyMagic]
  exact requestMagic_ne_replyMagic
    ((List.prefix_of_prefix_length_le hrequest hreply hlength.le).eq_of_length hlength)

theorem reply_ne_request {body frame : Bytes} {op : Op} {nonce : Nonce} {name : String}
    (h : replyMagic <+: body) (hframe : encodeRequest key op nonce name = .ok frame) :
    key.tagged body ≠ frame := by
  intro hsame
  have hreply : replyMagic <+: frame := by
    rw [← hsame]
    exact h.trans (List.prefix_append _ _)
  have hrequest : requestMagic <+: frame := by
    unfold encodeRequest at hframe
    split at hframe
    · cases hframe
    · cases hframe
      simp only [WireKey.tagged, requestBody, List.append_assoc]
      exact List.prefix_append _ _
  have hlength : requestMagic.length = replyMagic.length := by
    rw [length_requestMagic, length_replyMagic]
  exact requestMagic_ne_replyMagic
    ((List.prefix_of_prefix_length_le hrequest hreply hlength.le).eq_of_length hlength)

end LogicalWorks.Lease
