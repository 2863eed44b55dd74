import LogicalWorks.Json.Reader
import LogicalWorks.Json.FiniteMap

/-! The grammar of JSON documents: which texts read as which values, with at most 127 containers
around anything.  What is behind a phrase is carried along. -/
namespace LogicalWorks.Json

def Space (text rest : Bytes) : Prop :=
  ∃ run, (∀ byte ∈ run, isSpace byte = true) ∧ text = run ++ rest

inductive Phrase (F : Type) where
  | value (value : Value F)
  | items (items : List (Value F))
  | members (members : List (Text × Value F))

inductive Word {F : Type} : Bytes → Value F → Prop where
  | null : Word Reader.wordNull .null
  | yes : Word Reader.wordTrue (.bool true)
  | no : Word Reader.wordFalse (.bool false)

/-- A phrase inside `depth` containers at the front of a text.  The last of a repeated key wins. -/
inductive Reads {F : Type} (floating : Bytes → Option F) : Nat → Bytes → Phrase F → Bytes → Prop where
  | word {depth : Nat} {word rest : Bytes} {value : Value F} (h : Word word value) :
      Reads floating depth (word ++ rest) (.value value) rest
  | string {depth : Nat} {token rest : Bytes} {text : Text} (h : decodeString token = some text) :
      Reads floating depth (token ++ rest) (.value (.string text)) rest
  | number {depth : Nat} {token rest : Bytes} {number : Number F}
      (h : decodeNumber floating token = some number) :
      Reads floating depth (token ++ rest) (.value (.number number)) rest
  | emptyArray {depth : Nat} {inside rest : Bytes} (hdepth : depth < 127)
      (hinside : Space inside (0x5D :: rest)) :
      Reads floating depth (0x5B :: inside) (.value (.array [])) rest
  | array {depth : Nat} {inside first rest : Bytes} {items : List (Value F)} (hdepth : depth < 127)
      (hinside : Space inside first) (hitems : Reads floating (depth + 1) first (.items items) rest) :
      Reads floating depth (0x5B :: inside) (.value (.array items)) rest
  | lastItem {depth : Nat} {text behind rest : Bytes} {item : Value F}
      (hitem : Reads floating depth text (.value item) behind)
      (hbehind : Space behind (0x5D :: rest)) :
      Reads floating depth text (.items [item]) rest
  | nextItem {depth : Nat} {text behind next first rest : Bytes} {item : Value F}
      {items : List (Value F)} (hitem : Reads floating depth text (.value item) behind)
      (hbehind : Space behind (0x2C :: next)) (hnext : Space next first)
      (hitems : Reads floating depth first (.items items) rest) :
      Reads floating depth text (.items (item :: items)) rest
  | emptyObject {depth : Nat} {inside rest : Bytes} (hdepth : depth < 127)
      (hinside : Space inside (0x7D :: rest)) :
      Reads floating depth (0x7B :: inside) (.value (.object [])) rest
  | object {depth : Nat} {inside first rest : Bytes} {members : List (Text × Value F)}
      (hdepth : depth < 127) (hinside : Space inside first)
      (hmembers : Reads floating (depth + 1) first (.members members) rest) :
      Reads floating depth (0x7B :: inside) (.value (.object (Ordered.ofList members).rows)) rest
  | lastMember {depth : Nat} {token colon text first behind rest : Bytes} {key : Text}
      {member : Value F} (hkey : decodeString token = some key) (hcolon : Space colon (0x3A :: text))
      (hfirst : Space text first) (hmember : Reads floating depth first (.value member) behind)
      (hbehind : Space behind (0x7D :: rest)) :
      Reads floating depth (token ++ colon) (.members [(key, member)]) rest
  | nextMember {depth : Nat} {token colon text first behind next others rest : Bytes} {key : Text}
      {member : Value F} {members : List (Text × Value F)} (hkey : decodeString token = some key)
      (hcolon : Space colon (0x3A :: text)) (hfirst : Space text first)
      (hmember : Reads floating depth first (.value member) behind)
      (hbehind : Space behind (0x2C :: next)) (hnext : Space next others)
      (hmembers : Reads floating depth others (.members members) rest) :
      Reads floating depth (token ++ colon) (.members ((key, member) :: members)) rest

def Document {F : Type} (floating : Bytes → Option F) (text : Bytes) (value : Value F) : Prop :=
  ∃ first behind, Space text first ∧ Reads floating 0 first (.value value) behind ∧ Space behind []

section Space

variable {text rest : Bytes}

theorem space_skipSpace (text : Bytes) : Space text (Reader.skipSpace text) :=
  ⟨text.takeWhile isSpace, fun _ hmem => List.mem_takeWhile_imp hmem, List.takeWhile_append_dropWhile.symm⟩

theorem Space.skipped (h : Space text rest) (hrest : ∀ byte, rest.head? = some byte →
    isSpace byte = false) : Reader.skipSpace text = rest := by
  obtain ⟨run, hrun, rfl⟩ := h
  unfold Reader.skipSpace
  rw [List.dropWhile_append_of_pos hrun]
  cases rest with
  | nil => rfl
  | cons byte rest => exact List.dropWhile_cons_of_neg (by simp [hrest byte rfl])

theorem Space.length_le (h : Space text rest) : rest.length ≤ text.length := by
  obtain ⟨run, -, rfl⟩ := h
  rw [List.length_append]
  omega

end Space

section Strings

variable {run token text rest : Bytes} {key : Text}

theorem escapedString_sound (h : Reader.escapedString token text = some (key, rest)) :
    ∃ body, text = body ++ rest ∧ decodeString (token ++ body) = some key := by
  fun_induction Reader.escapedString token text with
  | case1 token => cases h
  | case2 token behind =>
    obtain ⟨found, hfound, hpair⟩ := Option.map_eq_some_iff.mp h
    cases hpair
    exact ⟨[quote], rfl, hfound⟩
  | case3 token hquote => cases h
  | case4 token skipped behind hquote ih =>
    obtain ⟨body, rfl, hbody⟩ := ih h
    refine ⟨backslash :: skipped :: body, rfl, ?_⟩
    rwa [List.append_assoc] at hbody
  | case5 token byte behind hquote hbackslash ih =>
    obtain ⟨body, rfl, hbody⟩ := ih h
    refine ⟨byte :: body, rfl, ?_⟩
    rwa [List.append_assoc] at hbody

theorem stringFrom_sound (hrun : ∀ byte ∈ run, isPlain byte = true)
    (h : Reader.stringFrom run text = some (key, rest)) :
    ∃ body, text = body ++ rest ∧ decodeString (quote :: run ++ body) = some key := by
  fun_induction Reader.stringFrom run text with
  | case1 run => cases h
  | case2 run behind =>
    cases h
    refine ⟨[quote], rfl, ?_⟩
    change (decodeBody (run ++ [quote])).map Text.mk = _
    rw [decodeBody_plain hrun]
    rfl
  | case3 run behind hquote => exact escapedString_sound h
  | case4 run byte behind hquote hbackslash hcontrol => cases h
  | case5 run byte behind hquote hbackslash hcontrol ih =>
    have hplain : ∀ other ∈ run ++ [byte], isPlain other = true := by
      intro other hmem
      rcases List.mem_append.mp hmem with hmem | hmem
      · exact hrun other hmem
      · rw [List.mem_singleton.mp hmem]
        unfold isPlain
        simp [hquote, hbackslash, hcontrol]
    obtain ⟨body, rfl, hbody⟩ := ih hplain h
    refine ⟨byte :: body, rfl, ?_⟩
    rwa [← List.cons_append, List.append_assoc] at hbody

end Strings

end LogicalWorks.Json

/-! The direct reader answers exactly what the grammar reads. -/
namespace LogicalWorks.Json
open Reader

variable {F : Type} {floating : Bytes → Option F}

section Numbers

theorem le_foldl_digits (digits : Bytes) (start : Nat) :
    start ≤ digits.foldl (fun value byte => value * 10 + (byte.toNat - 0x30)) start := by
  induction digits generalizing start with
  | nil => exact Nat.le_refl _
  | cons byte rest ih =>
    rw [List.foldl_cons]
    exact Nat.le_trans (by omega) (ih _)

theorem digitsValue_pos {byte : UInt8} {rest : Bytes} (hdigit : isDigit byte = true)
    (hzero : byte ≠ zero) : 0 < digitsValue (byte :: rest) := by
  unfold digitsValue
  rw [List.foldl_cons]
  refine Nat.lt_of_lt_of_le ?_ (le_foldl_digits rest _)
  unfold isDigit at hdigit
  simp only [Bool.and_eq_true, decide_eq_true_eq] at hdigit
  have hlow : 48 ≤ byte.toNat := UInt8.le_iff_toNat_le.mp hdigit.1
  have hne : byte.toNat ≠ 48 := fun heq => hzero (UInt8.toNat_inj.mp heq)
  omega

theorem decodeNumber_plain {token : Bytes} {negative : Bool} {digits : Bytes} {number : Number F}
    (hnegative : negative = decide (token.head? = some minus))
    (hdigits : digits = if negative then token.tail else token)
    (hplain : isPlainInteger negative digits = true)
    (h : parseInteger negative digits = some number) : decodeNumber floating token = some number := by
  unfold isPlainInteger at hplain
  simp only [Bool.and_eq_true, Bool.or_eq_true, Bool.not_eq_true', decide_eq_true_eq,
    List.isEmpty_eq_false_iff, ne_eq, decide_eq_false_iff_not, Bool.and_eq_false_iff] at hplain
  obtain ⟨⟨⟨hsome, hall⟩, hleading⟩, hminusZero⟩ := hplain
  have htake : digits.takeWhile isDigit = digits :=
    List.takeWhile_eq_self_iff.mpr (List.all_eq_true.mp hall)
  have hdrop : digits.dropWhile isDigit = [] :=
    List.dropWhile_eq_nil_iff.mpr (List.all_eq_true.mp hall)
  have hinteger : integerOf (F := F) negative (digitsValue digits) = some number := by
    unfold parseInteger at h
    unfold integerOf
    cases negative with
    | false => exact h
    | true =>
      have hpos : 0 < digitsValue digits := by
        cases hcases : digits with
        | nil => exact absurd hcases hsome
        | cons byte rest =>
          rw [hcases] at hall hleading hminusZero
          refine digitsValue_pos (List.all_eq_true.mp hall byte List.mem_cons_self) ?_
          rintro rfl
          rcases hleading with hone | hother
          · have hrest : rest = [] := List.eq_nil_of_length_eq_zero (Nat.succ.inj hone)
            rw [hrest] at hminusZero
            simp at hminusZero
          · exact hother rfl
      simpa [hpos] using h
  unfold decodeNumber
  dsimp only
  rw [← hnegative, ← hdigits, htake, hdrop, hinteger, if_neg, if_pos rfl]
  rintro (hnil | ⟨hzero, hlong⟩)
  · exact hsome hnil
  · rcases hleading with hone | hother
    · exact hlong hone
    · exact hother hzero

theorem number_eq (text : Bytes) :
    Reader.number floating text = (decodeNumber floating (text.takeWhile isNumberByte)).map
      fun number => (number, text.dropWhile isNumberByte) := by
  unfold Reader.number
  dsimp only
  generalize hnegative : decide ((text.takeWhile isNumberByte).head? = some minus) = negative
  generalize hdigits : (if negative = true then (text.takeWhile isNumberByte).tail
    else text.takeWhile isNumberByte) = digits
  cases hplain : isPlainInteger negative digits with
  | false => rfl
  | true =>
    rw [if_pos rfl]
    cases hparse : parseInteger (F := F) negative digits with
    | none => rfl
    | some number =>
      rw [decodeNumber_plain hnegative.symm hdigits.symm hplain hparse]
      rfl

theorem isNumberByte_of_isDigit {byte : UInt8} (h : isDigit byte = true) :
    isNumberByte byte = true := by
  unfold isNumberByte
  simp [h]

theorem exponentOk_bytes {behind : Bytes} (h : exponentOk behind = true) :
    ∀ byte ∈ behind, isNumberByte byte = true := by
  cases behind with
  | nil => exact fun _ hmem => absurd hmem List.not_mem_nil
  | cons mark rest =>
    unfold exponentOk at h
    simp only [Bool.and_eq_true, Bool.or_eq_true, decide_eq_true_eq] at h
    obtain ⟨⟨hmark, -⟩, hdigits⟩ := h
    have hrest : ∀ byte ∈ rest, isNumberByte byte = true := by
      split at hdigits
      · rename_i hsign
        cases rest with
        | nil => exact fun _ hmem => absurd hmem List.not_mem_nil
        | cons sign digits =>
          intro byte hmem
          rcases List.mem_cons.mp hmem with rfl | hdigit
          · unfold isNumberByte
            rcases hsign with hplus | hminus
            · simp [Option.some.inj hplus]
            · simp [Option.some.inj hminus]
          · exact isNumberByte_of_isDigit (List.all_eq_true.mp hdigits byte hdigit)
      · exact fun byte hmem => isNumberByte_of_isDigit (List.all_eq_true.mp hdigits byte hmem)
    intro byte hmem
    rcases List.mem_cons.mp hmem with rfl | hbehind
    · unfold isNumberByte
      rcases hmark with rfl | rfl
      · rfl
      · rfl
    · exact hrest byte hbehind

theorem fractionOk_bytes {behind : Bytes} (h : fractionOk behind = true) :
    ∀ byte ∈ behind, isNumberByte byte = true := by
  cases behind with
  | nil => exact fun _ hmem => absurd hmem List.not_mem_nil
  | cons point rest =>
    unfold fractionOk at h
    dsimp only at h
    split at h
    · rename_i hpoint
      have hexponent := exponentOk_bytes (Bool.and_eq_true_iff.mp h).2
      intro byte hmem
      rcases List.mem_cons.mp hmem with rfl | hbehind
      · rw [hpoint]
        rfl
      · rw [← @List.takeWhile_append_dropWhile _ isDigit rest] at hbehind
        rcases List.mem_append.mp hbehind with hdigit | hlater
        · exact isNumberByte_of_isDigit (List.mem_takeWhile_imp hdigit)
        · exact hexponent byte hlater
    · exact exponentOk_bytes h

theorem decodeNumber_bytes {token : Bytes} {number : Number F}
    (h : decodeNumber floating token = some number) :
    (∀ byte ∈ token, isNumberByte byte = true) ∧
      ∃ byte rest, token = byte :: rest ∧ (byte = minus ∨ isDigit byte = true) := by
  unfold decodeNumber at h
  dsimp only at h
  generalize hnegative : decide (token.head? = some minus) = negative at h
  generalize hunsigned : (if negative = true then token.tail else token) = unsigned at h
  have hbehind : ∀ byte ∈ unsigned.dropWhile isDigit, isNumberByte byte = true := by
    split at h
    · cases h
    · split at h
      · rename_i hnil
        rw [hnil]
        exact fun _ hmem => absurd hmem List.not_mem_nil
      · split at h
        · rename_i hfraction
          exact fractionOk_bytes hfraction
        · cases h
  have hall : ∀ byte ∈ unsigned, isNumberByte byte = true := by
    intro byte hmem
    rw [← @List.takeWhile_append_dropWhile _ isDigit unsigned] at hmem
    rcases List.mem_append.mp hmem with hdigit | hlater
    · exact isNumberByte_of_isDigit (List.mem_takeWhile_imp hdigit)
    · exact hbehind byte hlater
  have hsome : unsigned.takeWhile isDigit ≠ [] := by
    intro hnil
    rw [if_pos (Or.inl hnil)] at h
    cases h
  cases token with
  | nil =>
    have hempty : unsigned = [] := by
      rw [← hunsigned]
      split <;> rfl
    rw [hempty] at hsome
    exact absurd rfl hsome
  | cons first rest =>
    by_cases hminus : first = minus
    · refine ⟨?_, first, rest, rfl, .inl hminus⟩
      have htail : unsigned = rest := by
        rw [← hunsigned, ← hnegative, hminus]
        rfl
      intro byte hmem
      rcases List.mem_cons.mp hmem with rfl | hlater
      · rw [hminus]
        rfl
      · exact hall byte (htail ▸ hlater)
    · have hself : unsigned = first :: rest := by
        rw [← hunsigned, ← hnegative]
        simp [hminus]
      rw [hself] at hall hsome
      refine ⟨hall, first, rest, rfl, .inr ?_⟩
      by_contra hdigit
      exact hsome (List.takeWhile_cons_of_neg hdigit)

end Numbers

section Soundness

theorem eat_eq_some {byte : UInt8} {text rest : Bytes} :
    eat byte text = some rest ↔ text = byte :: rest := by
  cases text with
  | nil => simp [eat]
  | cons first others =>
    unfold eat
    split
    · rename_i hsame
      rw [hsame]
      simp
    · rename_i hother
      simp [hother]

theorem literal_sound {word text rest : Bytes} {value found : Value F}
    (h : literal word value text = some (found, rest)) : text = word ++ rest ∧ found = value := by
  unfold literal at h
  split at h
  · rename_i htake
    cases h
    refine ⟨(List.take_append_drop word.length text).symm.trans ?_, rfl⟩
    rw [htake]
  · cases h

theorem string_sound {text rest : Bytes} {key : Text} (hquote : text.head? = some quote)
    (h : Reader.string text = some (key, rest)) :
    ∃ token, text = token ++ rest ∧ decodeString token = some key := by
  cases text with
  | nil => cases hquote
  | cons byte behind =>
    cases hquote
    obtain ⟨body, hbody, hdecode⟩ := stringFrom_sound (fun _ hmem => absurd hmem List.not_mem_nil) h
    exact ⟨quote :: body, congrArg _ hbody, hdecode⟩

structure Sound (floating : Bytes → Option F) (fuel : Nat) : Prop where
  value : ∀ depth text found rest, value floating fuel depth text = some (found, rest) →
    Reads floating depth text (.value found) rest
  array : ∀ depth text found rest, text.head? = some 0x5B →
    array floating fuel depth text = some (found, rest) →
    Reads floating depth text (.value found) rest
  items : ∀ depth text found rest, items floating fuel depth text = some (found, rest) →
    Reads floating depth text (.items found) rest
  object : ∀ depth text found rest, text.head? = some 0x7B →
    object floating fuel depth text = some (found, rest) →
    Reads floating depth text (.value found) rest
  members : ∀ depth text found rest, members floating fuel depth text = some (found, rest) →
    Reads floating depth text (.members found) rest

theorem Sound.next_value {fuel : Nat} (h : Sound floating fuel) {depth : Nat} {text rest : Bytes}
    {found : Value F} (hread : Reader.value floating (fuel + 1) depth text = some (found, rest)) :
    Reads floating depth text (.value found) rest := by
  unfold Reader.value at hread
  cases hhead : text.head? with
  | none =>
    rw [hhead] at hread
    cases hread
  | some byte =>
    rw [hhead] at hread
    dsimp only at hread
    split at hread
    · obtain ⟨rfl, rfl⟩ := literal_sound hread
      exact .word .null
    split at hread
    · obtain ⟨rfl, rfl⟩ := literal_sound hread
      exact .word .yes
    split at hread
    · obtain ⟨rfl, rfl⟩ := literal_sound hread
      exact .word .no
    split at hread
    · rename_i hquote
      obtain ⟨⟨key, behind⟩, hstring, hpair⟩ := Option.map_eq_some_iff.mp hread
      cases hpair
      obtain ⟨token, rfl, hdecode⟩ := string_sound (hquote ▸ hhead) hstring
      exact .string hdecode
    split at hread
    · rename_i hbracket
      exact h.array depth text found rest (hbracket ▸ hhead) hread
    split at hread
    · rename_i hbrace
      exact h.object depth text found rest (hbrace ▸ hhead) hread
    split at hread
    · obtain ⟨⟨number, behind⟩, hnumber, hpair⟩ := Option.map_eq_some_iff.mp hread
      cases hpair
      rw [number_eq] at hnumber
      obtain ⟨other, hdecode, hpair⟩ := Option.map_eq_some_iff.mp hnumber
      cases hpair
      have hreads := @Reads.number F floating depth _ (text.dropWhile isNumberByte) _ hdecode
      rwa [List.takeWhile_append_dropWhile] at hreads
    · cases hread

theorem Sound.next_array {fuel : Nat} (h : Sound floating fuel) {depth : Nat} {text rest : Bytes}
    {found : Value F} (hhead : text.head? = some 0x5B)
    (hread : Reader.array floating (fuel + 1) depth text = some (found, rest)) :
    Reads floating depth text (.value found) rest := by
  cases text with
  | nil => cases hhead
  | cons bracket inside =>
    cases hhead
    unfold Reader.array at hread
    split at hread
    · cases hread
    · rename_i hdepth
      unfold depthLimit at hdepth
      dsimp only [List.tail_cons] at hread
      cases hclose : eat 0x5D (skipSpace inside) with
      | some behind =>
        rw [hclose] at hread
        cases hread
        refine .emptyArray (by omega) ?_
        rw [← eat_eq_some.mp hclose]
        exact space_skipSpace inside
      | none =>
        rw [hclose] at hread
        obtain ⟨⟨items, behind⟩, hitems, hpair⟩ := Option.map_eq_some_iff.mp hread
        cases hpair
        exact .array (by omega) (space_skipSpace inside) (h.items _ _ _ _ hitems)

theorem Sound.next_object {fuel : Nat} (h : Sound floating fuel) {depth : Nat} {text rest : Bytes}
    {found : Value F} (hhead : text.head? = some 0x7B)
    (hread : Reader.object floating (fuel + 1) depth text = some (found, rest)) :
    Reads floating depth text (.value found) rest := by
  cases text with
  | nil => cases hhead
  | cons brace inside =>
    cases hhead
    unfold Reader.object at hread
    split at hread
    · cases hread
    · rename_i hdepth
      unfold depthLimit at hdepth
      dsimp only [List.tail_cons] at hread
      cases hclose : eat 0x7D (skipSpace inside) with
      | some behind =>
        rw [hclose] at hread
        cases hread
        refine .emptyObject (by omega) ?_
        rw [← eat_eq_some.mp hclose]
        exact space_skipSpace inside
      | none =>
        rw [hclose] at hread
        obtain ⟨⟨members, behind⟩, hmembers, hpair⟩ := Option.map_eq_some_iff.mp hread
        cases hpair
        rw [fromMembers_eq]
        exact .object (by omega) (space_skipSpace inside) (h.members _ _ _ _ hmembers)

theorem Sound.next_items {fuel : Nat} (h : Sound floating fuel) {depth : Nat} {text rest : Bytes}
    {found : List (Value F)}
    (hread : Reader.items floating (fuel + 1) depth text = some (found, rest)) :
    Reads floating depth text (.items found) rest := by
  unfold Reader.items at hread
  cases hvalue : Reader.value floating fuel depth text with
  | none =>
    rw [hvalue] at hread
    cases hread
  | some answer =>
    rw [hvalue] at hread
    obtain ⟨item, behind⟩ := answer
    dsimp only at hread
    have hitem := h.value _ _ _ _ hvalue
    have hspace := space_skipSpace behind
    cases hclose : eat 0x5D (skipSpace behind) with
    | some last =>
      rw [hclose] at hread
      cases hread
      exact .lastItem hitem (eat_eq_some.mp hclose ▸ hspace)
    | none =>
      rw [hclose] at hread
      dsimp only at hread
      cases hcomma : eat 0x2C (skipSpace behind) with
      | none =>
        rw [hcomma] at hread
        cases hread
      | some next =>
        rw [hcomma] at hread
        obtain ⟨⟨others, last⟩, hothers, hpair⟩ := Option.map_eq_some_iff.mp hread
        cases hpair
        exact .nextItem hitem (eat_eq_some.mp hcomma ▸ hspace) (space_skipSpace next)
          (h.items _ _ _ _ hothers)

theorem Sound.next_members {fuel : Nat} (h : Sound floating fuel) {depth : Nat} {text rest : Bytes}
    {found : List (Text × Value F)}
    (hread : Reader.members floating (fuel + 1) depth text = some (found, rest)) :
    Reads floating depth text (.members found) rest := by
  unfold Reader.members at hread
  split at hread
  · cases hread
  rename_i hquote
  cases hstring : Reader.string text with
  | none =>
    rw [hstring] at hread
    cases hread
  | some answer =>
    rw [hstring] at hread
    obtain ⟨key, colon⟩ := answer
    dsimp only at hread
    obtain ⟨token, rfl, hkey⟩ := string_sound (not_not.mp hquote) hstring
    cases hcolon : eat 0x3A (skipSpace colon) with
    | none =>
      rw [hcolon] at hread
      cases hread
    | some inside =>
      rw [hcolon] at hread
      dsimp only at hread
      cases hvalue : Reader.value floating fuel depth (skipSpace inside) with
      | none =>
        rw [hvalue] at hread
        cases hread
      | some answer =>
        rw [hvalue] at hread
        obtain ⟨member, behind⟩ := answer
        dsimp only at hread
        have hmember := h.value _ _ _ _ hvalue
        have hbefore := eat_eq_some.mp hcolon ▸ space_skipSpace colon
        have hspace := space_skipSpace behind
        cases hclose : eat 0x7D (skipSpace behind) with
        | some last =>
          rw [hclose] at hread
          cases hread
          exact .lastMember hkey hbefore (space_skipSpace inside) hmember
            (eat_eq_some.mp hclose ▸ hspace)
        | none =>
          rw [hclose] at hread
          dsimp only at hread
          cases hcomma : eat 0x2C (skipSpace behind) with
          | none =>
            rw [hcomma] at hread
            cases hread
          | some next =>
            rw [hcomma] at hread
            obtain ⟨⟨others, last⟩, hothers, hpair⟩ := Option.map_eq_some_iff.mp hread
            cases hpair
            exact .nextMember hkey hbefore (space_skipSpace inside) hmember
              (eat_eq_some.mp hcomma ▸ hspace) (space_skipSpace next)
              (h.members _ _ _ _ hothers)

theorem sound (fuel : Nat) : Sound floating fuel := by
  induction fuel with
  | zero =>
    constructor
    · intro depth text found rest h
      rw [Reader.value] at h
      cases h
    · intro depth text found rest hhead h
      rw [Reader.array] at h
      cases h
    · intro depth text found rest h
      rw [Reader.items] at h
      cases h
    · intro depth text found rest hhead h
      rw [Reader.object] at h
      cases h
    · intro depth text found rest h
      rw [Reader.members] at h
      cases h
  | succ fuel ih =>
    exact ⟨fun _ _ _ _ h => ih.next_value h, fun _ _ _ _ hhead h => ih.next_array hhead h,
      fun _ _ _ _ h => ih.next_items h, fun _ _ _ _ hhead h => ih.next_object hhead h,
      fun _ _ _ _ h => ih.next_members h⟩

theorem document_sound {text : Bytes} {value : Value F} (h : document floating text = some value) :
    Document floating text value := by
  unfold document at h
  cases hvalue : Reader.value floating (3 * text.length + 1) 0 (skipSpace text) with
  | none =>
    rw [hvalue] at h
    cases h
  | some answer =>
    rw [hvalue] at h
    obtain ⟨found, behind⟩ := answer
    dsimp only at h
    split at h
    · rename_i hend
      cases h
      refine ⟨_, behind, space_skipSpace text, (sound _).value _ _ _ _ hvalue, ?_⟩
      rw [← hend]
      exact space_skipSpace behind
    · cases h

end Soundness

section Completeness

theorem escapedString_complete {token body rest : Bytes} {key : Text} (hbody : Body body)
    (h : decodeString (token ++ body) = some key) :
    escapedString token (body ++ rest) = some (key, rest) := by
  induction hbody generalizing token with
  | close =>
    rw [List.singleton_append]
    unfold escapedString
    rw [if_pos rfl, h]
    rfl
  | @escape behind skipped hbehind ih =>
    rw [List.cons_append, List.cons_append]
    unfold escapedString
    rw [if_neg (by decide), if_pos rfl]
    refine ih ?_
    rwa [List.append_assoc]
  | @byte byte behind hquote hbackslash hbehind ih =>
    rw [List.cons_append]
    unfold escapedString
    rw [if_neg hquote, if_neg hbackslash]
    refine ih ?_
    rwa [List.append_assoc]

theorem stringFrom_complete {run body rest : Bytes} {key : Text} (hbody : Body body)
    (hrun : ∀ byte ∈ run, isPlain byte = true)
    (h : decodeString (quote :: run ++ body) = some key) :
    stringFrom run (body ++ rest) = some (key, rest) := by
  induction hbody generalizing run with
  | close =>
    rw [List.singleton_append]
    unfold stringFrom
    rw [if_pos rfl]
    change (decodeBody (run ++ [quote])).map Text.mk = _ at h
    rw [decodeBody_plain hrun] at h
    cases h
    rfl
  | @escape behind skipped hbehind ih =>
    rw [List.cons_append]
    unfold stringFrom
    rw [if_neg (by decide), if_pos rfl]
    exact @escapedString_complete (quote :: run) (backslash :: skipped :: behind) rest key
      (.escape skipped hbehind) h
  | @byte byte behind hquote hbackslash hbehind ih =>
    have hcontrol : ¬ byte < 0x20 := by
      intro hcontrol
      change (decodeBody (run ++ byte :: behind)).map Text.mk = _ at h
      rw [decodeBody_append _ hrun, decodeBody.eq_def (byte :: behind)] at h
      dsimp only at h
      rw [if_neg hquote, if_neg hbackslash, if_pos hcontrol] at h
      cases h
    rw [List.cons_append]
    unfold stringFrom
    rw [if_neg hquote, if_neg hbackslash, if_neg hcontrol]
    refine ih ?_ ?_
    · intro other hmem
      rcases List.mem_append.mp hmem with hmem | hmem
      · exact hrun other hmem
      · rw [List.mem_singleton.mp hmem]
        unfold isPlain
        simp [hquote, hbackslash, hcontrol]
    · rwa [← List.cons_append, List.append_assoc]

theorem decodeString_parts {token : Bytes} {key : Text} (h : decodeString token = some key) :
    ∃ body, token = quote :: body ∧ Body body := by
  cases token with
  | nil => cases h
  | cons byte body =>
    change (if byte = quote then (decodeBody body).map Text.mk else none) = _ at h
    split at h
    · rename_i hquote
      obtain ⟨found, hfound, -⟩ := Option.map_eq_some_iff.mp h
      exact ⟨body, by rw [hquote], body_of_decodeBody hfound⟩
    · cases h

theorem string_complete {token rest : Bytes} {key : Text} (h : decodeString token = some key) :
    Reader.string (token ++ rest) = some (key, rest) := by
  obtain ⟨body, rfl, hbody⟩ := decodeString_parts h
  exact stringFrom_complete hbody (fun _ hmem => absurd hmem List.not_mem_nil) h

def Ended (rest : Bytes) : Prop := ∀ byte, rest.head? = some byte → isNumberByte byte = false

theorem number_complete {token rest : Bytes} {number : Number F} (hended : Ended rest)
    (h : decodeNumber floating token = some number) :
    Reader.number floating (token ++ rest) = some (number, rest) := by
  have hall := (decodeNumber_bytes h).1
  have htake : (token ++ rest).takeWhile isNumberByte = token := by
    rw [List.takeWhile_append_of_pos hall]
    cases rest with
    | nil => rw [List.takeWhile_nil, List.append_nil]
    | cons byte behind =>
      rw [List.takeWhile_cons_of_neg (by simp [hended byte rfl]), List.append_nil]
  have hdrop : (token ++ rest).dropWhile isNumberByte = rest := by
    rw [List.dropWhile_append_of_pos hall]
    cases rest with
    | nil => rfl
    | cons byte behind => exact List.dropWhile_cons_of_neg (by simp [hended byte rfl])
  rw [number_eq, htake, hdrop, h]
  rfl

theorem Space.ended {text rest : Bytes} (h : Space text rest) (hrest : Ended rest) : Ended text := by
  obtain ⟨run, hrun, rfl⟩ := h
  cases run with
  | nil => exact hrest
  | cons byte others =>
    intro first hfirst
    cases hfirst
    have hspace := hrun byte List.mem_cons_self
    unfold isSpace at hspace
    simp only [Bool.or_eq_true, decide_eq_true_eq] at hspace
    rcases hspace with ((rfl | rfl) | rfl) | rfl <;> rfl

def begins (byte : UInt8) : Bool := !isSpace byte && byte ≠ 0x5D && byte ≠ 0x7D

theorem begins_of_isDigit {byte : UInt8} (h : isDigit byte = true) : begins byte = true := by
  have hother : ∀ other, isDigit other = false → byte ≠ other := by
    rintro other hother rfl
    rw [h] at hother
    cases hother
  unfold begins isSpace
  simp [hother 0x20 rfl, hother 0x09 rfl, hother 0x0A rfl, hother 0x0D rfl, hother 0x5D rfl,
    hother 0x7D rfl]

theorem Reads.starts {depth : Nat} {text rest : Bytes} {phrase : Phrase F}
    (h : Reads floating depth text phrase rest) :
    ∃ byte behind, text = byte :: behind ∧ begins byte = true := by
  induction h with
  | word h => cases h <;> exact ⟨_, _, rfl, rfl⟩
  | string h =>
    obtain ⟨body, rfl, -⟩ := decodeString_parts h
    exact ⟨quote, _, rfl, rfl⟩
  | number h =>
    obtain ⟨-, byte, behind, rfl, hbyte⟩ := decodeNumber_bytes h
    refine ⟨byte, _, rfl, ?_⟩
    rcases hbyte with rfl | hdigit
    · rfl
    · exact begins_of_isDigit hdigit
  | emptyArray _ _ => exact ⟨_, _, rfl, rfl⟩
  | array _ _ _ _ => exact ⟨_, _, rfl, rfl⟩
  | lastItem _ _ ih => exact ih
  | nextItem _ _ _ _ ih _ => exact ih
  | emptyObject _ _ => exact ⟨_, _, rfl, rfl⟩
  | object _ _ _ _ => exact ⟨_, _, rfl, rfl⟩
  | lastMember hkey _ _ _ _ _ =>
    obtain ⟨body, rfl, -⟩ := decodeString_parts hkey
    exact ⟨quote, _, rfl, rfl⟩
  | nextMember hkey _ _ _ _ _ _ _ _ =>
    obtain ⟨body, rfl, -⟩ := decodeString_parts hkey
    exact ⟨quote, _, rfl, rfl⟩

theorem head_of_decodeString {token : Bytes} {key : Text} (rest : Bytes)
    (h : decodeString token = some key) : (token ++ rest).head? = some quote := by
  obtain ⟨body, rfl, -⟩ := decodeString_parts h
  rfl

theorem Reads.length_lt {depth : Nat} {text rest : Bytes} {phrase : Phrase F}
    (h : Reads floating depth text phrase rest) : rest.length < text.length := by
  induction h with
  | word h => cases h <;> simp [wordNull, wordTrue, wordFalse] <;> omega
  | string h =>
    obtain ⟨body, rfl, -⟩ := decodeString_parts h
    simp only [List.cons_append, List.length_cons, List.length_append]
    omega
  | number h =>
    obtain ⟨-, byte, behind, rfl, -⟩ := decodeNumber_bytes h
    simp only [List.cons_append, List.length_cons, List.length_append]
    omega
  | emptyArray _ hinside | emptyObject _ hinside =>
    have hle := hinside.length_le
    simp only [List.length_cons] at hle ⊢
    omega
  | array _ hinside _ ih | object _ hinside _ ih =>
    have hle := hinside.length_le
    simp only [List.length_cons]
    omega
  | lastItem _ hbehind ih =>
    have hle := hbehind.length_le
    simp only [List.length_cons] at hle
    omega
  | nextItem _ hbehind hnext _ ih ihItems =>
    have hle := hbehind.length_le
    have hfirst := hnext.length_le
    simp only [List.length_cons] at hle
    omega
  | lastMember _ hcolon hfirst _ hbehind ih =>
    have hle := hcolon.length_le
    have hvalue := hfirst.length_le
    have hlast := hbehind.length_le
    simp only [List.length_cons, List.length_append] at hle hlast ⊢
    omega
  | nextMember _ hcolon hfirst _ hbehind hnext _ ih ihMembers =>
    have hle := hcolon.length_le
    have hvalue := hfirst.length_le
    have hlast := hbehind.length_le
    have hothers := hnext.length_le
    simp only [List.length_cons, List.length_append] at hle hlast ⊢
    omega

theorem Space.skip_cons {text rest : Bytes} {byte : UInt8} (h : Space text (byte :: rest))
    (hbyte : isSpace byte = false) : skipSpace text = byte :: rest := by
  refine h.skipped ?_
  intro other hother
  cases hother
  exact hbyte

theorem Reads.skip {depth : Nat} {text first rest : Bytes} {phrase : Phrase F}
    (h : Reads floating depth first phrase rest) (hspace : Space text first) :
    skipSpace text = first := by
  obtain ⟨byte, behind, rfl, hbegins⟩ := h.starts
  unfold begins at hbegins
  simp only [Bool.and_eq_true, Bool.not_eq_true'] at hbegins
  exact hspace.skip_cons hbegins.1.1

theorem Reads.eat_none {depth : Nat} {text rest : Bytes} {phrase : Phrase F} {byte : UInt8}
    (h : Reads floating depth text phrase rest) (hbyte : begins byte = false) :
    eat byte text = none := by
  obtain ⟨first, behind, rfl, hbegins⟩ := h.starts
  unfold eat
  refine if_neg ?_
  rintro rfl
  rw [hbyte] at hbegins
  cases hbegins

theorem ended_cons {byte : UInt8} {rest : Bytes} (h : isNumberByte byte = false) :
    Ended (byte :: rest) := by
  intro other hother
  cases hother
  exact h

theorem ended_nil : Ended [] := by
  intro byte hbyte
  cases hbyte

theorem eat_self (byte : UInt8) (rest : Bytes) : eat byte (byte :: rest) = some rest := if_pos rfl

theorem eat_other {byte other : UInt8} (rest : Bytes) (h : other ≠ byte) :
    eat byte (other :: rest) = none := if_neg h

def Taken (floating : Bytes → Option F) (depth : Nat) (text rest : Bytes) : Phrase F → Prop
  | .value found => Ended rest → ∀ fuel, 3 * text.length + 1 ≤ fuel →
      Reader.value floating fuel depth text = some (found, rest)
  | .items found => ∀ fuel, 3 * text.length + 2 ≤ fuel →
      Reader.items floating fuel depth text = some (found, rest)
  | .members found => ∀ fuel, 3 * text.length + 2 ≤ fuel →
      Reader.members floating fuel depth text = some (found, rest)

theorem taken_number {depth : Nat} {token rest : Bytes} {number : Number F}
    (h : decodeNumber floating token = some number) :
    Taken floating depth (token ++ rest) rest (.value (.number number)) := by
  intro hended fuel hfuel
  obtain ⟨fuel, rfl⟩ : ∃ left, fuel = left + 1 := ⟨fuel - 1, by omega⟩
  have hread := number_complete hended h
  obtain ⟨-, byte, behind, rfl, hbyte⟩ := decodeNumber_bytes h
  have hother : ∀ other, isDigit other = false → other ≠ minus → byte ≠ other := by
    rintro other hdigit hminus rfl
    rcases hbyte with rfl | hbyte
    · exact hminus rfl
    · rw [hdigit] at hbyte
      cases hbyte
  have htest : (byte = minus || isDigit byte) = true := by
    rcases hbyte with rfl | hbyte
    · rfl
    · rw [hbyte, Bool.or_true]
  unfold Reader.value
  rw [List.cons_append, List.head?_cons]
  dsimp only
  rw [if_neg (hother 0x6E rfl (by decide)), if_neg (hother 0x74 rfl (by decide)),
    if_neg (hother 0x66 rfl (by decide)), if_neg (hother quote rfl (by decide)),
    if_neg (hother 0x5B rfl (by decide)), if_neg (hother 0x7B rfl (by decide)), if_pos htest,
    ← List.cons_append, hread]
  rfl

theorem taken_word {depth : Nat} {word rest : Bytes} {value : Value F} (h : Word word value) :
    Taken floating depth (word ++ rest) rest (.value value) := by
  intro _ fuel hfuel
  obtain ⟨fuel, rfl⟩ : ∃ left, fuel = left + 1 := ⟨fuel - 1, by omega⟩
  rw [Reader.value]
  cases h <;> rfl

theorem taken_string {depth : Nat} {token rest : Bytes} {text : Text}
    (h : decodeString token = some text) :
    Taken floating depth (token ++ rest) rest (.value (.string text)) := by
  intro _ fuel hfuel
  obtain ⟨fuel, rfl⟩ : ∃ left, fuel = left + 1 := ⟨fuel - 1, by omega⟩
  have hread := @string_complete token rest text h
  obtain ⟨body, rfl, -⟩ := decodeString_parts h
  rw [Reader.value]
  change (Reader.string (quote :: body ++ rest)).map _ = _
  rw [hread]
  rfl

theorem taken_array {depth : Nat} {inside rest : Bytes} {items : List (Value F)}
    (hread : ∀ fuel, 3 * inside.length + 3 ≤ fuel →
      Reader.array floating fuel depth (0x5B :: inside) = some (.array items, rest)) :
    Taken floating depth (0x5B :: inside) rest (.value (.array items)) := by
  intro _ fuel hfuel
  rw [List.length_cons] at hfuel
  obtain ⟨fuel, rfl⟩ : ∃ left, fuel = left + 1 := ⟨fuel - 1, by omega⟩
  rw [Reader.value]
  exact hread fuel (by omega)

theorem taken_object {depth : Nat} {inside rest : Bytes} {members : List (Text × Value F)}
    (hread : ∀ fuel, 3 * inside.length + 3 ≤ fuel →
      Reader.object floating fuel depth (0x7B :: inside) = some (.object members, rest)) :
    Taken floating depth (0x7B :: inside) rest (.value (.object members)) := by
  intro _ fuel hfuel
  rw [List.length_cons] at hfuel
  obtain ⟨fuel, rfl⟩ : ∃ left, fuel = left + 1 := ⟨fuel - 1, by omega⟩
  rw [Reader.value]
  exact hread fuel (by omega)

theorem Reads.taken {depth : Nat} {text rest : Bytes} {phrase : Phrase F}
    (h : Reads floating depth text phrase rest) : Taken floating depth text rest phrase := by
  induction h with
  | word h => exact taken_word h
  | string h => exact taken_string h
  | number h => exact taken_number h
  | @emptyArray depth inside rest hdepth hinside =>
    refine taken_array fun fuel hfuel => ?_
    obtain ⟨fuel, rfl⟩ : ∃ left, fuel = left + 1 := ⟨fuel - 1, by omega⟩
    rw [Reader.array, if_neg (by unfold depthLimit; omega), List.tail_cons,
      hinside.skip_cons rfl]
    dsimp only
    rw [eat_self]
  | @array depth inside first rest items hdepth hinside hitems ih =>
    refine taken_array fun fuel hfuel => ?_
    obtain ⟨fuel, rfl⟩ : ∃ left, fuel = left + 1 := ⟨fuel - 1, by omega⟩
    have hle := hinside.length_le
    have hopen : eat 0x5D first = none := hitems.eat_none rfl
    rw [Reader.array, if_neg (by unfold depthLimit; omega), List.tail_cons, hitems.skip hinside]
    dsimp only
    rw [hopen, ih fuel (by omega)]
    rfl
  | @emptyObject depth inside rest hdepth hinside =>
    refine taken_object fun fuel hfuel => ?_
    obtain ⟨fuel, rfl⟩ : ∃ left, fuel = left + 1 := ⟨fuel - 1, by omega⟩
    rw [Reader.object, if_neg (by unfold depthLimit; omega), List.tail_cons,
      hinside.skip_cons rfl]
    dsimp only
    rw [eat_self]
    rfl
  | @object depth inside first rest members hdepth hinside hmembers ih =>
    refine taken_object fun fuel hfuel => ?_
    obtain ⟨fuel, rfl⟩ : ∃ left, fuel = left + 1 := ⟨fuel - 1, by omega⟩
    have hle := hinside.length_le
    have hopen : eat 0x7D first = none := hmembers.eat_none rfl
    rw [Reader.object, if_neg (by unfold depthLimit; omega), List.tail_cons, hmembers.skip hinside]
    dsimp only
    rw [hopen, ih fuel (by omega), ← fromMembers_eq]
    rfl
  | @lastItem depth text behind rest item hitem hbehind ih =>
    intro fuel hfuel
    obtain ⟨fuel, rfl⟩ : ∃ left, fuel = left + 1 := ⟨fuel - 1, by omega⟩
    rw [Reader.items, ih (hbehind.ended (ended_cons rfl)) fuel (by omega)]
    dsimp only
    rw [hbehind.skip_cons rfl, eat_self]
  | @nextItem depth text behind next first rest item items hitem hbehind hnext hitems ih ihItems =>
    intro fuel hfuel
    obtain ⟨fuel, rfl⟩ : ∃ left, fuel = left + 1 := ⟨fuel - 1, by omega⟩
    have htext := hitem.length_lt
    have hle := hbehind.length_le
    have hfirst := hnext.length_le
    rw [List.length_cons] at hle
    rw [Reader.items, ih (hbehind.ended (ended_cons rfl)) fuel (by omega)]
    dsimp only
    rw [hbehind.skip_cons rfl, eat_other next (by decide), eat_self]
    dsimp only
    rw [hitems.skip hnext, ihItems fuel (by omega)]
    rfl
  | @lastMember depth token colon text first behind rest key member hkey hcolon hfirst hmember
      hbehind ih =>
      intro fuel hfuel
      obtain ⟨fuel, rfl⟩ : ∃ left, fuel = left + 1 := ⟨fuel - 1, by omega⟩
      have hle := hcolon.length_le
      have htext := hfirst.length_le
      rw [List.length_cons] at hle
      rw [List.length_append] at hfuel
      rw [Reader.members, if_neg (not_not.mpr (head_of_decodeString colon hkey)),
        string_complete hkey]
      dsimp only
      rw [hcolon.skip_cons rfl, eat_self]
      dsimp only
      rw [hmember.skip hfirst, ih (hbehind.ended (ended_cons rfl)) fuel (by omega)]
      dsimp only
      rw [hbehind.skip_cons rfl, eat_self]
  | @nextMember depth token colon text first behind next others rest key member members hkey hcolon
      hfirst hmember hbehind hnext hmembers ih ihMembers =>
      intro fuel hfuel
      obtain ⟨fuel, rfl⟩ : ∃ left, fuel = left + 1 := ⟨fuel - 1, by omega⟩
      have hle := hcolon.length_le
      have htext := hfirst.length_le
      have hvalue := hmember.length_lt
      have hlast := hbehind.length_le
      have hothers := hnext.length_le
      rw [List.length_cons] at hle hlast
      rw [List.length_append] at hfuel
      rw [Reader.members, if_neg (not_not.mpr (head_of_decodeString colon hkey)),
        string_complete hkey]
      dsimp only
      rw [hcolon.skip_cons rfl, eat_self]
      dsimp only
      rw [hmember.skip hfirst, ih (hbehind.ended (ended_cons rfl)) fuel (by omega)]
      dsimp only
      rw [hbehind.skip_cons rfl, eat_other next (by decide), eat_self]
      dsimp only
      rw [hmembers.skip hnext, ihMembers fuel (by omega)]
      rfl

theorem document_complete {text : Bytes} {value : Value F} (h : Document floating text value) :
    document floating text = some value := by
  obtain ⟨first, behind, hfirst, hvalue, hbehind⟩ := h
  have hended : Ended behind := hbehind.ended ended_nil
  have hle := hfirst.length_le
  have hskip : skipSpace behind = [] := by
    refine hbehind.skipped ?_
    intro byte hbyte
    cases hbyte
  unfold document
  rw [hvalue.skip hfirst, hvalue.taken hended _ (by omega)]
  dsimp only
  rw [if_pos hskip]

end Completeness

theorem document_iff {text : Bytes} {value : Value F} :
    document floating text = some value ↔ Document floating text value :=
  ⟨document_sound, document_complete⟩

def Reference {ε : Type} (floating : Bytes → Option F) (library : Bytes → Except ε (Value F)) : Prop :=
  ∀ text value, library text = .ok value ↔ Document floating text value

/-- The direct reader answers as the library or not at all, so parsing a text is the library's
reading of it; and an object's map answers as the finite map its operations make. -/
theorem direct_reader_agrees {ε : Type} {library : Bytes → Except ε (Value F)}
    (hlibrary : Reference floating library) (text : Bytes)
    (operations : List (Operation (Value F))) :
    (∀ value, document floating text = some value → library text = .ok value) ∧
      ((∀ value, ¬ Document floating text value) → document floating text = none) ∧
      fromStr floating library text = library text ∧
      Answers (operations.foldl (fun map operation => (map.apply operation).2) Map.new)
        (operations.foldl (fun held operation => (operation.on held).2) fun _ => none) := by
  have hsame : ∀ value, document floating text = some value → library text = .ok value :=
    fun value h => (hlibrary text value).mpr (document_sound h)
  refine ⟨hsame, ?_, ?_, answers_of_operations operations⟩
  · intro hmalformed
    cases hdocument : document floating text with
    | none => rfl
    | some value => exact absurd (document_sound hdocument) (hmalformed value)
  · unfold fromStr
    cases hdocument : document floating text with
    | none => rfl
    | some value => exact (hsame value hdocument).symm

def integerLibrary (text : Bytes) : Except Unit (Value Empty) :=
  match document (fun _ => none) text with
  | some value => .ok value
  | none => .error ()

theorem integerLibrary_reference : Reference (fun _ => none) integerLibrary := by
  intro text value
  rw [← document_iff]
  unfold integerLibrary
  cases document (fun _ => none) text with
  | none => simp
  | some found => simp

/-- `[1]`, and a key set twice. -/
theorem direct_reader_agrees_list :
    (∀ value, document (F := Empty) (fun _ => none) [0x5B, 0x31, 0x5D] = some value →
        integerLibrary [0x5B, 0x31, 0x5D] = .ok value) ∧
      ((∀ value, ¬ Document (F := Empty) (fun _ => none) [0x5B, 0x31, 0x5D] value) →
        document (F := Empty) (fun _ => none) [0x5B, 0x31, 0x5D] = none) ∧
      fromStr (fun _ => none) integerLibrary [0x5B, 0x31, 0x5D] =
        integerLibrary [0x5B, 0x31, 0x5D] ∧
      Answers (V := Value Empty)
        ([Operation.insert ⟨[0x61]⟩ .null, .insert ⟨[0x61]⟩ (.bool true)].foldl
          (fun map operation => (map.apply operation).2) Map.new)
        ([Operation.insert ⟨[0x61]⟩ .null, .insert ⟨[0x61]⟩ (.bool true)].foldl
          (fun held operation => (operation.on held).2) fun _ => none) :=
  direct_reader_agrees integerLibrary_reference _ _

end LogicalWorks.Json
