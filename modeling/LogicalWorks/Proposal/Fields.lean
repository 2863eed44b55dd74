import LogicalWorks.Proposal.Codec
import LogicalWorks.Lib.Checks

/-! The cursor machine as a fold: a document is read as its lines are, one after another. -/
namespace LogicalWorks.Proposal
open Journal (Digest)

def linesOf (bytes : Bytes) : List Bytes := bytes.splitOn newline

theorem linesOf_newline (rest : Bytes) : linesOf (newline :: rest) = [] :: linesOf rest := by
  simp [linesOf, List.splitOn_cons_eq_if_modifyHead]

def firstLine (bytes : Bytes) : Bytes := bytes.takeWhile fun byte => byte ≠ newline

def behind (bytes : Bytes) : Bytes := (bytes.dropWhile fun byte => byte ≠ newline).tail

@[simp] theorem linesOf_nil : linesOf [] = [[]] := rfl

theorem linesOf_eq (bytes : Bytes) :
    (linesOf bytes = firstLine bytes :: linesOf (behind bytes) ∧
        bytes.length = (firstLine bytes).length + 1 + (behind bytes).length) ∨
      (linesOf bytes = [firstLine bytes] ∧ behind bytes = [] ∧ firstLine bytes = bytes) := by
  induction bytes with
  | nil => exact .inr ⟨rfl, rfl, rfl⟩
  | cons byte rest ih =>
    by_cases hbyte : byte = newline
    · subst hbyte
      refine .inl ⟨?_, ?_⟩
      · simp [linesOf_newline, firstLine, behind]
      · simp [firstLine, behind, Nat.add_comm]
    · have hfirst : firstLine (byte :: rest) = byte :: firstLine rest := by
        simp [firstLine, hbyte]
      have hbehind : behind (byte :: rest) = behind rest := by simp [behind, hbyte]
      have hlines : linesOf (byte :: rest) = (linesOf rest).modifyHead (byte :: ·) := by
        simp [linesOf, List.splitOn_cons_eq_if_modifyHead, hbyte]
      rw [hfirst, hbehind, hlines]
      rcases ih with ⟨hcut, hlength⟩ | ⟨hcut, hnone, hall⟩
      · refine .inl ⟨by rw [hcut]; rfl, ?_⟩
        simp only [List.length_cons]
        omega
      · exact .inr ⟨by rw [hcut]; rfl, hnone, by rw [hall]⟩

namespace Reader

theorem line_eq {limits : PlanLimits} (taken : Nat) (bytes : Bytes)
    (htaken : taken ≤ lineCeiling limits) :
    line limits taken bytes =
      if lineCeiling limits < taken + (firstLine bytes).length then
        .error (.refused (.limit "the length of a line in a plan" (lineCeiling limits + 1)
          (lineCeiling limits)))
      else .ok (firstLine bytes, behind bytes) := by
  induction bytes generalizing taken with
  | nil => simp [line, firstLine, behind, htaken]
  | cons byte rest ih =>
    rw [line]
    by_cases hbyte : byte = newline
    · subst hbyte
      simp [firstLine, behind, htaken]
    · have hfirst : firstLine (byte :: rest) = byte :: firstLine rest := by
        simp [firstLine, hbyte]
      have hbehind : behind (byte :: rest) = behind rest := by simp [behind, hbyte]
      rw [hfirst, hbehind, if_neg hbyte, List.length_cons]
      by_cases hfull : lineCeiling limits < taken + 1
      · have : taken = lineCeiling limits := by omega
        rw [if_pos hfull, if_pos (by omega), this]
      · rw [if_neg hfull, ih (taken + 1) (by omega)]
        by_cases hlong : lineCeiling limits < taken + 1 + (firstLine rest).length
        · rw [if_pos hlong, if_pos (by omega)]
        · rw [if_neg hlong, if_neg (by omega)]

def readLines (limits : PlanLimits) (surface : Surface) :
    Nat → Declared → Nat → List Bytes → Except Stop Declared
  | _, declared, _, [] => .ok declared
  | fields, declared, start, raw :: rest =>
    if lineCeiling limits < raw.length then
      .error (.refused (.limit "the length of a line in a plan" (lineCeiling limits + 1)
        (lineCeiling limits)))
    else if (trimCr raw).isEmpty then
      readLines limits surface fields declared (start + raw.length + 1) rest
    else if limits.maxFields.toNat < min (fields + 1) (2 ^ 32 - 1) then
      .error (.refused (.limit "the number of fields in a plan" (min (fields + 1) (2 ^ 32 - 1))
        limits.maxFields.toNat))
    else
      match field limits surface declared (trimCr raw) start with
      | .error stop => .error stop
      | .ok declared =>
        readLines limits surface (min (fields + 1) (2 ^ 32 - 1)) declared
          (start + raw.length + 1) rest

variable {limits : PlanLimits} {surface : Surface}

@[simp] theorem readLines_blank (fields : Nat) (declared : Declared) (start : Nat)
    (rest : List Bytes) :
    readLines limits surface fields declared start ([] :: rest) =
      readLines limits surface fields declared (start + 1) rest := by
  simp [readLines, trimCr]

theorem readLines_skipNewlines (fields : Nat) (declared : Declared) (start : Nat)
    (bytes : Bytes) :
    readLines limits surface fields declared start (linesOf bytes) =
      readLines limits surface fields declared
        (start + (bytes.length - (skipNewlines bytes).length)) (linesOf (skipNewlines bytes)) := by
  induction bytes generalizing start with
  | nil => rfl
  | cons byte rest ih =>
    by_cases hbyte : byte = newline
    · subst hbyte
      have hskip : skipNewlines (newline :: rest) = skipNewlines rest := by
        simp [skipNewlines]
      have hle := length_skipNewlines rest
      rw [linesOf_newline, readLines_blank, ih, hskip, List.length_cons]
      congr 1
      omega
    · have hskip : skipNewlines (byte :: rest) = byte :: rest := by
        simp [skipNewlines, hbyte]
      rw [hskip, Nat.sub_self, Nat.add_zero]

theorem readLines_behind (fields : Nat) (declared : Declared) (start : Nat) (bytes : Bytes) :
    readLines limits surface fields declared start (linesOf bytes).tail =
      readLines limits surface fields declared start (linesOf (behind bytes)) := by
  rcases linesOf_eq bytes with ⟨hcut, -⟩ | ⟨hcut, hnone, -⟩
  · rw [hcut, List.tail_cons]
  · rw [hcut, hnone, List.tail_cons, linesOf_nil, readLines_blank]
    rfl

theorem linesOf_eq_cons (bytes : Bytes) :
    linesOf bytes = firstLine bytes :: (linesOf bytes).tail := by
  rcases linesOf_eq bytes with ⟨hcut, -⟩ | ⟨hcut, -, -⟩ <;> rw [hcut] <;> rfl

theorem readLines_from {fields : Nat} {declared : Declared} {bytes : Bytes} {total : Nat}
    (hbytes : bytes.length ≤ total) :
    readLines limits surface fields declared
        (total - bytes.length + (firstLine bytes).length + 1) (linesOf (behind bytes)) =
      readLines limits surface fields declared (total - (behind bytes).length)
        (linesOf (behind bytes)) := by
  rcases linesOf_eq bytes with ⟨-, hlength⟩ | ⟨-, hnone, -⟩
  · congr 1
    omega
  · rw [hnone, linesOf_nil, readLines_blank, readLines_blank]
    rfl

theorem document_eq (total fields : Nat) (declared : Declared) (rest : Bytes)
    (hrest : rest.length ≤ total) :
    document limits surface total fields declared rest =
      readLines limits surface fields declared (total - rest.length) (linesOf rest) := by
  have hskipped := length_skipNewlines rest
  have hstart : total - rest.length + (rest.length - (skipNewlines rest).length) =
      total - (skipNewlines rest).length := by omega
  rw [readLines_skipNewlines, hstart, document]
  by_cases hdone : skipNewlines rest = []
  · rw [dif_pos hdone, hdone, linesOf_nil, readLines_blank]
    rfl
  · rw [dif_neg hdone, linesOf_eq_cons, readLines]
    have hline := @line_eq limits 0 (skipNewlines rest) (Nat.zero_le _)
    rw [Nat.zero_add] at hline
    by_cases hlong : lineCeiling limits < (firstLine (skipNewlines rest)).length
    · rw [if_pos hlong] at hline ⊢
      split
      · next stop h => rw [h] at hline; cases hline; rfl
      · next h => rw [h] at hline; cases hline
    · rw [if_neg hlong] at hline ⊢
      have hshorter := line_length hline hdone
      split
      · next h => rw [h] at hline; cases hline
      · next read left h =>
        rw [h] at hline
        cases hline
        simp only [readLines_behind, readLines_from (hskipped.trans hrest)]
        split
        · exact document_eq total fields declared _ (by omega)
        · split
          · rfl
          · cases field limits surface declared (trimCr (firstLine (skipNewlines rest)))
              (total - (skipNewlines rest).length) with
            | error stop => rfl
            | ok declared => exact document_eq total _ declared _ (by omega)
termination_by rest.length

end Reader
end LogicalWorks.Proposal

/-! What the lines of a payload say, and where reading them ends: each line is a field the
surface takes, or it is refused.  A name or a value that is spaces and nothing else stops the
decoder. -/
namespace LogicalWorks.Proposal
open Journal (Digest)
open LogicalWorks.Task (utf8)

def OnlySpaces (bytes : Bytes) : Prop := bytes ≠ [] ∧ ∀ byte ∈ bytes, byte = space

theorem length_takeWhile_le (left right : Bytes) {byte : UInt8} (h : byte ≠ space) :
    ((left ++ byte :: right).takeWhile fun byte => byte = space).length ≤ left.length := by
  induction left with
  | nil => simp [h]
  | cons first rest ih =>
    rw [List.cons_append, List.takeWhile_cons]
    split
    · exact Nat.succ_le_succ ih
    · exact Nat.zero_le _

/-- The slice's ends cross exactly when there is nothing between the spaces but spaces. -/
theorem trim_eq_none {value : Bytes} : trim value = none ↔ OnlySpaces value := by
  constructor
  · intro h
    by_contra hother
    have hspaced : value = [] ∨ ∃ byte ∈ value, byte ≠ space := by
      by_cases hempty : value = []
      · exact .inl hempty
      · refine .inr ?_
        by_contra hnone
        push Not at hnone
        exact hother ⟨hempty, hnone⟩
    rcases hspaced with rfl | ⟨byte, hmem, hbyte⟩
    · cases h
    · obtain ⟨left, right, rfl⟩ := List.append_of_mem hmem
      have hfront := length_takeWhile_le left right hbyte
      have hback := length_takeWhile_le right.reverse left.reverse hbyte
      unfold trim Bytes.slice at h
      rw [show (left ++ byte :: right).reverse = right.reverse ++ byte :: left.reverse by simp] at h
      have hlength : (left ++ byte :: right).length = left.length + right.length + 1 := by
        simp only [List.length_append, List.length_cons]
        omega
      rw [List.length_reverse] at hback
      rw [if_pos ⟨by omega, by omega⟩] at h
      cases h
  · rintro ⟨hsome, hspaces⟩
    have hfront : value.takeWhile (fun byte => byte = space) = value :=
      List.takeWhile_eq_self_iff.mpr fun byte hmem => decide_eq_true (hspaces byte hmem)
    have hback : value.reverse.takeWhile (fun byte => byte = space) = value.reverse :=
      List.takeWhile_eq_self_iff.mpr fun byte hmem =>
        decide_eq_true (hspaces byte (List.mem_reverse.mp hmem))
    have hlength : 0 < value.length := List.length_pos_of_ne_nil hsome
    unfold trim Bytes.slice
    rw [hfront, hback, List.length_reverse, if_neg (fun h => by omega)]

def said (line : Bytes) : Option (Text × Text) := do
  let (rawName, rawValue) ← Reader.split line
  let name ← trim rawName
  let value ← trim rawValue
  some (Utf8.lossy name, Utf8.lossy value)

def Says (line : Bytes) (name value : Text) : Prop := said line = some (name, value)

/-- The lines that say something, a carriage return at their end dropped. -/
def sayingLines (lines : List Bytes) : List Bytes :=
  (lines.map trimCr).filter fun line => line ≠ []

def nonBlank (payload : Bytes) : List Bytes := sayingLines (linesOf payload)

structure Cut (limits : PlanLimits) (line rawName rawValue : Bytes) : Prop where
  split : Reader.split line = some (rawName, rawValue)
  name_length : rawName.length ≤ maxFieldNameBytes
  value_length : rawValue.length ≤ limits.maxFieldBytes

def knownFields : List Text :=
  [utf8 "op", utf8 "note", utf8 "path", utf8 "coverage", utf8 "install", utf8 "credential",
    utf8 "host"]

def put (declared : Declared) (name value : Text) : Declared :=
  if name = utf8 "op" then { declared with ops := declared.ops ++ [value] }
  else if name = utf8 "note" then { declared with notes := declared.notes ++ [value] }
  else if name = utf8 "path" then { declared with paths := declared.paths ++ [value] }
  else if name = utf8 "coverage" then { declared with coverage := some value }
  else declared

def Taken (surface : Surface) (name value : Text) : Prop :=
  name ∈ [utf8 "op", utf8 "note", utf8 "path", utf8 "coverage"] ∨
    (name = utf8 "host" ∧ value = surface.tenant)

variable {limits : PlanLimits} {surface : Surface}

theorem decodeText_eq_panicked {raw : Bytes} :
    decodeText raw = .error .panicked ↔ OnlySpaces raw := by
  rw [← trim_eq_none]
  unfold decodeText
  cases trim raw with
  | none => exact ⟨fun _ => rfl, fun _ => rfl⟩
  | some trimmed => exact ⟨fun h => (by cases h), fun h => (by cases h)⟩

theorem decodeText_eq_ok {raw : Bytes} {text : Text} :
    decodeText raw = .ok text ↔ ∃ trimmed, trim raw = some trimmed ∧ Utf8.lossy trimmed = text := by
  unfold decodeText
  cases trim raw with
  | none => exact ⟨fun h => (by cases h), fun ⟨_, h, _⟩ => (by cases h)⟩
  | some trimmed =>
    constructor
    · intro h
      exact ⟨trimmed, rfl, Except.ok.inj h⟩
    · rintro ⟨_, h, htext⟩
      cases h
      exact congrArg _ htext

theorem says_iff {line rawName rawValue : Bytes} {name value : Text}
    (hsplit : Reader.split line = some (rawName, rawValue)) :
    Says line name value ↔ decodeText rawName = .ok name ∧ decodeText rawValue = .ok value := by
  simp only [Says, said, hsplit, decodeText_eq_ok, Option.bind_eq_bind, Option.bind_some,
    Option.bind_eq_some_iff, Option.some.injEq, Prod.mk.injEq]
  constructor
  · rintro ⟨first, hfirst, second, hsecond, hname, hvalue⟩
    exact ⟨⟨first, hfirst, hname⟩, second, hsecond, hvalue⟩
  · rintro ⟨⟨first, hfirst, hname⟩, second, hsecond, hvalue⟩
    exact ⟨first, hfirst, second, hsecond, hname, hvalue⟩

theorem decodeText_ne_refused {raw : Bytes} {refusal : Refusal} :
    decodeText raw ≠ .error (.refused refusal) := by
  unfold decodeText
  intro h
  cases htrim : trim raw with
  | none => rw [htrim] at h; cases h
  | some trimmed => rw [htrim] at h; cases h

theorem install_not_taken {value : Text} : ¬Taken surface (utf8 "install") value := by
  rintro (h | h)
  · exact absurd h (by decide +kernel)
  · exact absurd h.1 (by decide +kernel)

theorem credential_not_taken {value : Text} : ¬Taken surface (utf8 "credential") value := by
  rintro (h | h)
  · exact absurd h (by decide +kernel)
  · exact absurd h.1 (by decide +kernel)

theorem taken_host {value : Text} : Taken surface (utf8 "host") value ↔ value = surface.tenant := by
  constructor
  · rintro (h | h)
    · exact absurd h (by decide +kernel)
    · exact h.2
  · exact fun h => .inr ⟨rfl, h⟩

theorem refuseForeignHost_eq_ok {value : Text} :
    Reader.refuseForeignHost surface value = .ok () ↔ value = surface.tenant := by
  unfold Reader.refuseForeignHost
  split
  · next h => exact ⟨fun _ => h, fun _ => rfl⟩
  · next h => exact ⟨fun h => (by cases h), fun h' => absurd h' h⟩

theorem store_eq_ok {declared after : Declared} {name value : Text} {start : Nat} :
    Reader.store surface declared name value start = .ok after ↔
      Taken surface name value ∧ after = put declared name value := by
  have hkept {next : Declared} (h : Taken surface name value) :
      (.ok next : Except Stop Declared) = .ok after ↔ Taken surface name value ∧ after = next :=
    ⟨fun hnext => ⟨h, (Except.ok.inj hnext).symm⟩, fun hnext => hnext.2 ▸ rfl⟩
  unfold Reader.store put
  split_ifs with hop hnote hpath hcoverage hinstall hcredential hhost
  · exact hkept (.inl (by simp [hop]))
  · exact hkept (.inl (by simp [hnote]))
  · exact hkept (.inl (by simp [hpath]))
  · exact hkept (.inl (by simp [hcoverage]))
  · exact ⟨fun h => (by cases h), fun h => absurd (hinstall ▸ h.1) install_not_taken⟩
  · exact ⟨fun h => (by cases h), fun h => absurd (hcredential ▸ h.1) credential_not_taken⟩
  · subst hhost
    rw [taken_host, ← refuseForeignHost_eq_ok]
    cases Reader.refuseForeignHost surface value with
    | error stop => exact ⟨fun h => (by cases h), fun h => (by cases h.1)⟩
    | ok answer => exact ⟨fun h => ⟨rfl, (Except.ok.inj h).symm⟩, fun h => h.2 ▸ rfl⟩
  · refine ⟨fun h => (by cases h), ?_⟩
    rintro ⟨htaken | ⟨htaken, -⟩, -⟩
    · simp [hop, hnote, hpath, hcoverage] at htaken
    · exact absurd htaken hhost

theorem store_ne_panicked {declared : Declared} {name value : Text} {start : Nat} :
    Reader.store surface declared name value start ≠ .error .panicked := by
  unfold Reader.store Reader.refuseForeignHost
  split_ifs <;> intro h <;> cases h

theorem checkLen_eq_ok {len limit : Nat} {what : String} {start : Nat} :
    Reader.checkLen len limit what start = .ok () ↔ len ≤ limit := by
  unfold Reader.checkLen
  split
  · exact ⟨fun h => (by cases h), fun h => absurd h (by omega)⟩
  · exact ⟨fun _ => by omega, fun _ => rfl⟩

theorem checkLen_ne_panicked {len limit : Nat} {what : String} {start : Nat} :
    Reader.checkLen len limit what start ≠ .error .panicked := by
  unfold Reader.checkLen
  split <;> intro h <;> cases h

theorem field_eq_ok {declared after : Declared} {line : Bytes} {start : Nat} :
    Reader.field limits surface declared line start = .ok after ↔
      (∃ rawName rawValue, Cut limits line rawName rawValue) ∧
        ∃ name value, Says line name value ∧ Taken surface name value ∧
          after = put declared name value := by
  unfold Reader.field
  cases hsplit : Reader.split line with
  | none =>
    refine ⟨fun h => (by cases h), ?_⟩
    rintro ⟨⟨rawName, rawValue, hcut⟩, -⟩
    rw [hcut.split] at hsplit
    cases hsplit
  | some raw =>
    obtain ⟨rawName, rawValue⟩ := raw
    simp only [bind_eq_ok, store_eq_ok]
    constructor
    · rintro ⟨_, hname, _, hvalue, name, hread, value, hread', htaken, rfl⟩
      exact ⟨⟨rawName, rawValue, hsplit, checkLen_eq_ok.mp hname, checkLen_eq_ok.mp hvalue⟩,
        name, value, (says_iff hsplit).mpr ⟨hread, hread'⟩, htaken, rfl⟩
    · rintro ⟨⟨_, _, hcut⟩, name, value, htold, htaken, rfl⟩
      cases hsplit.symm.trans hcut.split
      obtain ⟨hread, hread'⟩ := (says_iff hsplit).mp htold
      exact ⟨(), checkLen_eq_ok.mpr hcut.name_length, (), checkLen_eq_ok.mpr hcut.value_length,
        name, hread, value, hread', htaken, rfl⟩

theorem field_eq_panicked {declared : Declared} {line : Bytes} {start : Nat} :
    Reader.field limits surface declared line start = .error .panicked ↔
      ∃ rawName rawValue, Cut limits line rawName rawValue ∧
        (OnlySpaces rawName ∨ OnlySpaces rawValue) := by
  unfold Reader.field
  cases hsplit : Reader.split line with
  | none =>
    refine ⟨fun h => (by cases h), ?_⟩
    rintro ⟨rawName, rawValue, hcut, -⟩
    rw [hcut.split] at hsplit
    cases hsplit
  | some raw =>
    obtain ⟨rawName, rawValue⟩ := raw
    simp only [bind_eq_error, checkLen_ne_panicked, store_ne_panicked, decodeText_eq_panicked,
      false_or, and_false, exists_false, or_false]
    constructor
    · rintro ⟨_, hname, _, hvalue, hspaces⟩
      refine ⟨rawName, rawValue,
        ⟨hsplit, checkLen_eq_ok.mp hname, checkLen_eq_ok.mp hvalue⟩, ?_⟩
      rcases hspaces with hspaces | ⟨_, -, hspaces⟩
      · exact .inl hspaces
      · exact .inr hspaces
    · rintro ⟨_, _, hcut, hspaces⟩
      cases hsplit.symm.trans hcut.split
      refine ⟨(), checkLen_eq_ok.mpr hcut.name_length, (),
        checkLen_eq_ok.mpr hcut.value_length, ?_⟩
      by_cases hname : OnlySpaces rawName
      · exact .inl hname
      · cases hread : decodeText rawName with
        | ok name => exact .inr ⟨name, rfl, hspaces.resolve_left hname⟩
        | error stop =>
          cases stop with
          | refused refusal => exact absurd hread decodeText_ne_refused
          | panicked => exact absurd (decodeText_eq_panicked.mp hread) hname

def Passes (limits : PlanLimits) (surface : Surface) (raw : Bytes) : Prop :=
  raw.length ≤ Reader.lineCeiling limits ∧
    (trimCr raw ≠ [] → (∃ rawName rawValue, Cut limits (trimCr raw) rawName rawValue) ∧
      ∃ name value, Says (trimCr raw) name value ∧ Taken surface name value)

def Trips (limits : PlanLimits) (raw : Bytes) : Prop :=
  raw.length ≤ Reader.lineCeiling limits ∧
    ∃ rawName rawValue, Cut limits (trimCr raw) rawName rawValue ∧
      (OnlySpaces rawName ∨ OnlySpaces rawValue)

def declareLine (declared : Declared) (line : Bytes) : Declared :=
  match said line with
  | some (name, value) => put declared name value
  | none => declared

theorem declareLine_eq {declared : Declared} {line : Bytes} {name value : Text}
    (h : Says line name value) : declareLine declared line = put declared name value := by
  unfold declareLine
  rw [h]

theorem Cut.ne_nil {line rawName rawValue : Bytes} (h : Cut limits line rawName rawValue) :
    line ≠ [] := by
  rintro rfl
  cases h.split

theorem sayingLines_blank {raw : Bytes} (rest : List Bytes) (h : trimCr raw = []) :
    sayingLines (raw :: rest) = sayingLines rest := by
  simp [sayingLines, h]

theorem sayingLines_cons {raw : Bytes} (rest : List Bytes) (h : trimCr raw ≠ []) :
    sayingLines (raw :: rest) = trimCr raw :: sayingLines rest := by
  simp [sayingLines, h]

theorem readLines_eq_ok {fields start : Nat} {declared after : Declared} {lines : List Bytes} :
    Reader.readLines limits surface fields declared start lines = .ok after ↔
      (∀ raw ∈ lines, Passes limits surface raw) ∧
        (sayingLines lines ≠ [] →
          min (fields + (sayingLines lines).length) (2 ^ 32 - 1) ≤ limits.maxFields.toNat) ∧
        after = (sayingLines lines).foldl declareLine declared := by
  induction lines generalizing fields start declared with
  | nil =>
    constructor
    · intro h
      exact ⟨fun raw hmem => (by cases hmem), fun h => absurd rfl h, (Except.ok.inj h).symm⟩
    · rintro ⟨-, -, rfl⟩
      rfl
  | cons raw rest ih =>
    rw [Reader.readLines]
    by_cases hlong : Reader.lineCeiling limits < raw.length
    · rw [if_pos hlong]
      refine ⟨fun h => (by cases h), fun h => ?_⟩
      have := (h.1 raw List.mem_cons_self).1
      omega
    · rw [if_neg hlong]
      by_cases hblank : trimCr raw = []
      · rw [if_pos (List.isEmpty_iff.mpr hblank), ih, sayingLines_blank rest hblank,
          List.forall_mem_cons]
        constructor
        · rintro ⟨hpasses, hothers⟩
          exact ⟨⟨⟨by omega, fun h => absurd hblank h⟩, hpasses⟩, hothers⟩
        · rintro ⟨⟨-, hpasses⟩, hothers⟩
          exact ⟨hpasses, hothers⟩
      · rw [if_neg (fun h => hblank (List.isEmpty_iff.mp h)), sayingLines_cons rest hblank,
          List.forall_mem_cons, List.foldl_cons, List.length_cons]
        by_cases hmany : limits.maxFields.toNat < min (fields + 1) (2 ^ 32 - 1)
        · rw [if_pos hmany]
          refine ⟨fun h => (by cases h), fun h => ?_⟩
          have := h.2.1 (List.cons_ne_nil _ _)
          omega
        · rw [if_neg hmany]
          cases hfield : Reader.field limits surface declared (trimCr raw) start with
          | error stop =>
            refine ⟨fun h => (by cases h), fun h => ?_⟩
            obtain ⟨hcut, name, value, htold, htaken⟩ := h.1.1.2 hblank
            rw [field_eq_ok.mpr ⟨hcut, name, value, htold, htaken, rfl⟩] at hfield
            cases hfield
          | ok next =>
            obtain ⟨hcut, name, value, htold, htaken, rfl⟩ := field_eq_ok.mp hfield
            rw [declareLine_eq htold]
            refine ih.trans ?_
            constructor
            · rintro ⟨hpasses, hcount, hafter⟩
              refine ⟨⟨⟨by omega, fun _ => ⟨hcut, name, value, htold, htaken⟩⟩, hpasses⟩,
                fun _ => ?_, hafter⟩
              by_cases hnone : sayingLines rest = []
              · rw [hnone, List.length_nil]
                omega
              · have := hcount hnone
                omega
            · rintro ⟨⟨-, hpasses⟩, hcount, hafter⟩
              refine ⟨hpasses, fun _ => ?_, hafter⟩
              have := hcount (List.cons_ne_nil _ _)
              omega

structure TripsAt (limits : PlanLimits) (surface : Surface) (fields : Nat)
    (lines before : List Bytes) (raw : Bytes) (after : List Bytes) : Prop where
  cut : lines = before ++ raw :: after
  passed : ∀ earlier ∈ before, Passes limits surface earlier
  count : min (fields + (sayingLines before).length + 1) (2 ^ 32 - 1) ≤ limits.maxFields.toNat
  trips : Trips limits raw

theorem Trips.not_passes {raw : Bytes} (h : Trips limits raw) : ¬Passes limits surface raw := by
  obtain ⟨-, rawName, rawValue, hcut, hspaces⟩ := h
  intro hpasses
  obtain ⟨hcut', name, value, htold, -⟩ := hpasses.2 hcut.ne_nil
  obtain ⟨hname, hvalue⟩ := (says_iff hcut.split).mp htold
  rcases hspaces with hspaces | hspaces
  · rw [decodeText_eq_panicked.mpr hspaces] at hname
    cases hname
  · rw [decodeText_eq_panicked.mpr hspaces] at hvalue
    cases hvalue

def Stray (limits : PlanLimits) (surface : Surface) (fields : Nat) (lines : List Bytes) : Prop :=
  ∃ before raw after, TripsAt limits surface fields lines before raw after

def charged (fields : Nat) (raw : Bytes) : Nat :=
  if trimCr raw = [] then fields else min (fields + 1) (2 ^ 32 - 1)

theorem stray_cons {fields : Nat} {raw : Bytes} {rest : List Bytes} :
    Stray limits surface fields (raw :: rest) ↔
      (Trips limits raw ∧ min (fields + 1) (2 ^ 32 - 1) ≤ limits.maxFields.toNat) ∨
        (Passes limits surface raw ∧ Stray limits surface (charged fields raw) rest) := by
  have hcounted (before : List Bytes) :
      min (fields + (sayingLines (raw :: before)).length + 1) (2 ^ 32 - 1) =
        min (charged fields raw + (sayingLines before).length + 1) (2 ^ 32 - 1) := by
    unfold charged
    split
    · next h => rw [sayingLines_blank before h]
    · next h =>
      rw [sayingLines_cons before h, List.length_cons]
      omega
  constructor
  · rintro ⟨before, tripped, after, h⟩
    cases before with
    | nil =>
      have hcut := h.cut
      cases hcut
      exact .inl ⟨h.trips, h.count⟩
    | cons first before =>
      have hcut := h.cut
      cases hcut
      refine .inr ⟨h.passed raw List.mem_cons_self, before, tripped, after, rfl,
        fun earlier hmem => h.passed earlier (List.mem_cons_of_mem _ hmem), ?_, h.trips⟩
      exact (hcounted before).symm.le.trans h.count
  · rintro (⟨htrips, hcount⟩ | ⟨hpasses, before, tripped, after, h⟩)
    · exact ⟨[], raw, rest, rfl, fun earlier hmem => (by cases hmem), hcount, htrips⟩
    · refine ⟨raw :: before, tripped, after, congrArg _ h.cut, ?_, ?_, h.trips⟩
      · exact List.forall_mem_cons.mpr ⟨hpasses, h.passed⟩
      · exact (hcounted before).le.trans h.count

/-- The reader stops short exactly at the first line that does not pass, if it trips there. -/
theorem readLines_eq_panicked {fields start : Nat} {declared : Declared} {lines : List Bytes} :
    Reader.readLines limits surface fields declared start lines = .error .panicked ↔
      Stray limits surface fields lines := by
  induction lines generalizing fields start declared with
  | nil =>
    refine ⟨fun h => (by cases h), ?_⟩
    rintro ⟨before, raw, after, h⟩
    have hcut := h.cut
    simp at hcut
  | cons raw rest ih =>
    rw [Reader.readLines, stray_cons]
    by_cases hlong : Reader.lineCeiling limits < raw.length
    · rw [if_pos hlong]
      refine ⟨fun h => (by cases h), ?_⟩
      rintro (⟨htrips, -⟩ | ⟨hpasses, -⟩)
      · exact absurd htrips.1 (by omega)
      · exact absurd hpasses.1 (by omega)
    · rw [if_neg hlong]
      by_cases hblank : trimCr raw = []
      · rw [if_pos (List.isEmpty_iff.mpr hblank), ih, charged, if_pos hblank]
        constructor
        · intro h
          exact .inr ⟨⟨by omega, fun hsome => absurd hblank hsome⟩, h⟩
        · rintro (⟨⟨-, rawName, rawValue, hcut, -⟩, -⟩ | ⟨-, h⟩)
          · exact absurd hblank hcut.ne_nil
          · exact h
      · rw [if_neg (fun h => hblank (List.isEmpty_iff.mp h)), charged, if_neg hblank]
        by_cases hmany : limits.maxFields.toNat < min (fields + 1) (2 ^ 32 - 1)
        · rw [if_pos hmany]
          refine ⟨fun h => (by cases h), ?_⟩
          rintro (⟨-, hcount⟩ | ⟨-, before, tripped, after, h⟩)
          · omega
          · have := h.count
            omega
        · rw [if_neg hmany]
          cases hfield : Reader.field limits surface declared (trimCr raw) start with
          | error stop =>
            have hstopped : ¬Passes limits surface raw := by
              intro hpasses
              obtain ⟨hcut, name, value, htold, htaken⟩ := hpasses.2 hblank
              rw [field_eq_ok.mpr ⟨hcut, name, value, htold, htaken, rfl⟩] at hfield
              cases hfield
            constructor
            · intro h
              cases h
              exact .inl ⟨⟨by omega, field_eq_panicked.mp hfield⟩, by omega⟩
            · rintro (⟨htrips, -⟩ | ⟨hpasses, -⟩)
              · rw [field_eq_panicked.mpr htrips.2] at hfield
                cases hfield
                rfl
              · exact absurd hpasses hstopped
          | ok next =>
            obtain ⟨hcut, name, value, htold, htaken, -⟩ := field_eq_ok.mp hfield
            have hpasses : Passes limits surface raw :=
              ⟨by omega, fun _ => ⟨hcut, name, value, htold, htaken⟩⟩
            refine ih.trans ⟨fun h => .inr ⟨hpasses, h⟩, ?_⟩
            rintro (⟨htrips, -⟩ | ⟨-, h⟩)
            · exact absurd hpasses htrips.not_passes
            · exact h

end LogicalWorks.Proposal
