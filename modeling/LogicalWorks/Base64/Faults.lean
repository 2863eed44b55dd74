import LogicalWorks.Base64.RoundTrip

/-! Which fault of an input the decoder reports. -/
namespace LogicalWorks.Base64

/-- The place of a fault: a character that is not of the alphabet, a padding character before the
last two or before another character, the first padding character over bits that say something, or
the end of an input that is not whole quanta. -/
def Malformed (input : List UInt8) (place : Nat) : Prop :=
  (place = input.length ∧ input.length % 4 ≠ 0) ∨
  (∃ byte, input[place]? = some byte ∧ byte ≠ equals ∧ sextet byte = none) ∨
  (input[place]? = some equals ∧ (place + 2 < input.length ∨ place < (body input).length)) ∨
  (place = (body input).length ∧ input.length % 4 = 0 ∧
    ∃ values, body input = characters values ∧ (∀ value ∈ values, value < 64) ∧
      leftover values ≠ 0)

def FirstMalformed (input : List UInt8) (place : Nat) : Prop :=
  Malformed input place ∧ ∀ earlier < place, ¬ Malformed input earlier

/-- The faults of length and padding, which are looked for first, are not before others. -/
def InOrder (input : List UInt8) : Prop :=
  (input.length % 4 ≠ 0 → trailing input ≤ 2) ∧
  (input.length % 4 ≠ 0 ∨ trailing input > 2 → ∀ byte ∈ body input, sextet byte ≠ none) ∧
  (equals ∈ body input →
    ∀ byte ∈ (body input).takeWhile (· != equals), sextet byte ≠ none)

section Places

variable {input : List UInt8}

theorem length_body_add (input : List UInt8) :
    (body input).length + trailing input = input.length := by
  have h := congrArg List.length (body_append input)
  rwa [List.length_append, List.length_replicate] at h

theorem getElem?_of_lt_body {place : Nat} (h : place < (body input).length) :
    input[place]? = (body input)[place]? := by
  conv_lhs => rw [← body_append input]
  exact List.getElem?_append_left h

theorem getElem?_padding {place : Nat} (h : (body input).length ≤ place)
    (hplace : place < input.length) : input[place]? = some equals := by
  have hlength := length_body_add input
  conv_lhs => rw [← body_append input]
  rw [List.getElem?_append_right h, List.getElem?_replicate, if_pos (by omega)]

theorem malformed_body {place : Nat} (h : place < (body input).length) :
    Malformed input place ↔ ∃ byte, (body input)[place]? = some byte ∧ sextet byte = none := by
  have hlength := length_body_add input
  unfold Malformed
  rw [getElem?_of_lt_body h]
  constructor
  · rintro (⟨hplace, -⟩ | ⟨byte, hbyte, -, hnone⟩ | ⟨hequals, -⟩ | ⟨hplace, -⟩)
    · omega
    · exact ⟨byte, hbyte, hnone⟩
    · exact ⟨equals, hequals, sextet_equals⟩
    · omega
  · rintro ⟨byte, hbyte, hnone⟩
    by_cases hequals : byte = equals
    · rw [hequals] at hbyte
      exact .inr (.inr (.inl ⟨hbyte, .inr h⟩))
    · exact .inr (.inl ⟨byte, hbyte, hequals, hnone⟩)

theorem none_malformed_iff {place : Nat} (h : place ≤ (body input).length) :
    (∀ earlier < place, ¬ Malformed input earlier) ↔
      ∀ byte ∈ (body input).take place, sextet byte ≠ none := by
  constructor
  · intro hnone byte hbyte hsextet
    obtain ⟨earlier, hearlier, heq⟩ := List.getElem_of_mem hbyte
    rw [List.length_take] at hearlier
    rw [List.getElem_take] at heq
    refine hnone earlier (by omega) ((malformed_body (by omega)).mpr ⟨byte, ?_, hsextet⟩)
    rw [List.getElem?_eq_getElem (by omega), heq]
  · intro hall earlier hearlier hmalformed
    obtain ⟨byte, hbyte, hsextet⟩ := (malformed_body (by omega)).mp hmalformed
    refine hall byte ?_ hsextet
    apply List.mem_of_getElem? (i := earlier)
    rw [List.getElem?_take, if_pos hearlier, hbyte]

theorem none_malformed_body_iff :
    (∀ earlier < (body input).length, ¬ Malformed input earlier) ↔
      ∀ byte ∈ body input, sextet byte ≠ none := by
  rw [none_malformed_iff (Nat.le_refl _), List.take_length]

end Places

section Passes

variable {input : List UInt8}

theorem badLength_first (hquantum : input.length % 4 ≠ 0) :
    FirstMalformed input input.length ↔
      trailing input ≤ 2 ∧ ∀ byte ∈ body input, sextet byte ≠ none := by
  have hlength := length_body_add input
  rw [← none_malformed_body_iff]
  constructor
  · rintro ⟨-, hnone⟩
    refine ⟨?_, fun earlier hearlier => hnone earlier (by omega)⟩
    by_contra hpadding
    refine hnone (body input).length (by omega) (.inr (.inr (.inl ⟨?_, .inl (by omega)⟩)))
    exact getElem?_padding (Nat.le_refl _) (by omega)
  · rintro ⟨hpadding, hnone⟩
    refine ⟨.inl ⟨rfl, hquantum⟩, fun earlier hearlier => ?_⟩
    by_cases hbody : earlier < (body input).length
    · exact hnone earlier hbody
    · have hequals := getElem?_padding (Nat.not_lt.mp hbody) hearlier
      unfold Malformed
      rw [hequals]
      rintro (⟨hplace, -⟩ | ⟨byte, hbyte, hne, -⟩ | ⟨-, hplace⟩ | ⟨-, hwhole, -⟩)
      · omega
      · exact hne (Option.some.inj hbyte).symm
      · omega
      · exact hquantum hwhole

theorem padding_first (hpadding : trailing input > 2) :
    FirstMalformed input (input.length - trailing input) ↔
      ∀ byte ∈ body input, sextet byte ≠ none := by
  have hlength := length_body_add input
  have hplace : input.length - trailing input = (body input).length := by omega
  rw [hplace, ← none_malformed_body_iff]
  refine and_iff_right (.inr (.inr (.inl ⟨?_, .inl (by omega)⟩)))
  exact getElem?_padding (Nat.le_refl _) (by omega)

theorem interior_first {offset : Nat}
    (h : (body input).findIdx? (· == equals) = some offset) :
    FirstMalformed input offset ↔
      ∀ byte ∈ (body input).takeWhile (· != equals), sextet byte ≠ none := by
  rw [List.findIdx?_eq_some_iff_findIdx_eq] at h
  obtain ⟨hlt, hidx⟩ := h
  have htake : (body input).takeWhile (· != equals) = (body input).take offset := by
    rw [List.takeWhile_eq_take_findIdx_not, ← hidx]
    simp only [bne, Bool.not_not]
  have hequals : (body input)[offset]? = some equals := by
    have hfound := @List.findIdx_getElem _ (· == equals) (body input) (by rw [hidx]; exact hlt)
    rw [beq_iff_eq] at hfound
    simp only [hidx] at hfound
    rw [List.getElem?_eq_getElem hlt, hfound]
  rw [htake, ← none_malformed_iff (Nat.le_of_lt hlt)]
  exact and_iff_right ((malformed_body hlt).mpr ⟨equals, hequals, sextet_equals⟩)

theorem decodeChunks_error {index : Nat} {bits : Bits} {chars : List UInt8} {cause : DecodeError}
    (h : decodeChunks index bits chars = .error cause) :
    ∃ place byte, cause = .notInAlphabet (index + place) byte ∧ chars[place]? = some byte ∧
      sextet byte = none ∧ ∀ earlier ∈ chars.take place, sextet earlier ≠ none := by
  induction chars generalizing index bits with
  | nil => cases h
  | cons byte rest ih =>
    rw [decodeChunks, decodeBodyChunk] at h
    cases hsextet : sextet byte with
    | none =>
      rw [hsextet] at h
      cases h
      exact ⟨0, byte, rfl, rfl, hsextet, List.forall_mem_nil _⟩
    | some value =>
      rw [hsextet] at h
      obtain ⟨place, other, hcause, hother, hnone, hearlier⟩ := ih h
      refine ⟨place + 1, other, ?_, hother, hnone, ?_⟩
      · rw [hcause, Nat.add_assoc, Nat.add_comm 1]
      · rw [List.take_succ_cons]
        exact List.forall_mem_cons.mpr ⟨by simp [hsextet], hearlier⟩

theorem body_first (hwhole : input.length % 4 = 0) {cause : DecodeError}
    (h : decodeBodyBytes (body input) = .error cause) : FirstMalformed input cause.place := by
  cases hchunks : decodeChunks 0 ⟨0, 0, []⟩ (body input) with
  | error cause' =>
    unfold decodeBodyBytes at h
    rw [hchunks] at h
    cases h
    obtain ⟨place, byte, rfl, hbyte, hnone, hearlier⟩ := decodeChunks_error hchunks
    rw [Nat.zero_add]
    have hlt : place < (body input).length := (List.getElem?_eq_some_iff.mp hbyte).1
    exact ⟨(malformed_body hlt).mpr ⟨byte, hbyte, hnone⟩,
      (none_malformed_iff (Nat.le_of_lt hlt)).mpr hearlier⟩
  | ok bits =>
    obtain ⟨values, hvalues, hbody⟩ := characters_of_decodeChunks hchunks
    rw [hbody, decodeBodyBytes_characters values hvalues] at h
    split at h
    next hleft =>
      cases h
      have hlength : values.length = (body input).length := by
        rw [hbody, characters, List.length_map]
      show FirstMalformed input values.length
      rw [hlength]
      refine ⟨.inr (.inr (.inr ⟨rfl, hwhole, values, hbody, hvalues, hleft.2⟩)),
        none_malformed_body_iff.mpr fun byte hbyte => ?_⟩
      rw [hbody] at hbyte
      obtain ⟨value, hvalue, rfl⟩ := List.mem_map.mp hbyte
      have hlt := hvalues value hvalue
      rw [sextet_character (by rw [toNat_ofNat_of_lt hlt]; exact hlt)]
      exact Option.some_ne_none _
    · cases h

end Passes

theorem first_iff_inOrder (input : List UInt8) :
    (∀ cause, decode input = .error cause → FirstMalformed input cause.place) ↔
      InOrder input := by
  rcases eq_or_ne input [] with rfl | hne
  · refine iff_of_true (fun cause h => by cases h) ⟨fun h => absurd rfl h, ?_, ?_⟩
    · intro _ byte hbyte
      cases hbyte
    · intro hequals
      cases hequals
  rw [decode_eq hne]
  unfold InOrder
  by_cases hquantum : input.length % 4 ≠ 0
  · have hbad := badLength_first hquantum
    rw [if_pos hquantum]
    constructor
    · intro h
      obtain ⟨hpadding, hall⟩ := hbad.mp (h _ rfl)
      refine ⟨fun _ => hpadding, fun _ => hall, fun _ byte hbyte => ?_⟩
      exact hall byte ((List.takeWhile_sublist _).mem hbyte)
    · rintro ⟨hpadding, hall, -⟩ cause h
      cases h
      exact hbad.mpr ⟨hpadding hquantum, hall (.inl hquantum)⟩
  by_cases hpadding : trailing input > 2
  · have hfirst := padding_first hpadding
    rw [if_neg hquantum, if_pos hpadding]
    constructor
    · intro h
      have hall := hfirst.mp (h _ rfl)
      refine ⟨fun h => absurd h hquantum, fun _ => hall, fun _ byte hbyte => ?_⟩
      exact hall byte ((List.takeWhile_sublist _).mem hbyte)
    · rintro ⟨-, hall, -⟩ cause h
      cases h
      exact hfirst.mpr (hall (.inr hpadding))
  rw [if_neg hquantum, if_neg hpadding]
  cases hidx : (body input).findIdx? (· == equals) with
  | some offset =>
    have hfirst := interior_first hidx
    have hcheck : checkInteriorPadding (body input) = .error (.misplacedPadding offset) := by
      unfold checkInteriorPadding
      rw [hidx]
      rfl
    rw [hcheck]
    constructor
    · intro h
      refine ⟨fun h => absurd h hquantum, fun h => ?_, fun _ => hfirst.mp (h _ rfl)⟩
      exact absurd h (not_or.mpr ⟨hquantum, hpadding⟩)
    · rintro ⟨-, -, hbefore⟩ cause h
      cases h
      refine hfirst.mpr (hbefore ?_)
      obtain ⟨hlt, hfound⟩ := List.findIdx?_eq_some_iff_findIdx_eq.mp hidx
      have hequals := @List.findIdx_getElem _ (· == equals) (body input) (by rw [hfound]; exact hlt)
      rw [beq_iff_eq] at hequals
      exact hequals ▸ List.getElem_mem _
  | none =>
    have hnone : equals ∉ body input := by
      intro hmem
      rw [List.findIdx?_eq_none_iff] at hidx
      exact absurd (hidx equals hmem) (by simp)
    rw [checkInteriorPadding_ok hnone]
    refine iff_of_true (fun cause h => body_first (by omega) h)
      ⟨fun h => absurd h hquantum, fun h => ?_, fun h => absurd h hnone⟩
    exact absurd h (not_or.mpr ⟨hquantum, hpadding⟩)

end LogicalWorks.Base64
