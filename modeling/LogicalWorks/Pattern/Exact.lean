import LogicalWorks.Pattern.Replace

/-! A replacement within a ceiling is the whole replacement or a refusal. -/
namespace LogicalWorks.Pattern
open Slices

variable {ε : Type} {tryReserveExact : Allocator ε} {text replacement : List Char}

/-- The text is behind what the output held, or the output would have been too long. -/
inductive Appended (before : BoundedString) (text : List Char) :
    Except (Stop ε) BoundedString → Prop where
  | whole {after : BoundedString} (hvalue : after.value = before.value ++ text)
      (hlimit : after.limit = before.limit) : Appended before text (.ok after)
  | past {attempted : Nat} (hover : before.limit < attempted)
      (hle : attempted ≤ size (before.value ++ text)) :
      Appended before text (.error (.refused (.outputTooLarge before.limit attempted)))

section Append

variable {before : BoundedString} {rest : List Char} {result : Except (Stop ε) BoundedString}
  {next : BoundedString → Except (Stop ε) BoundedString}

theorem Appended.bind (h : Appended before text result)
    (hnext : ∀ middle, Appended middle rest (next middle)) :
    Appended before (text ++ rest) (result >>= next) := by
  cases h with
  | @whole middle hvalue hlimit =>
    show Appended before (text ++ rest) (next middle)
    have hmiddle := hnext middle
    cases hresult : next middle with
    | ok after =>
      rw [hresult] at hmiddle
      cases hmiddle with
      | whole hafter hsame =>
        exact .whole (by rw [hafter, hvalue, List.append_assoc]) (hsame.trans hlimit)
    | error stop =>
      rw [hresult] at hmiddle
      cases hmiddle with
      | past hover hle =>
        rw [hlimit]
        exact .past (hlimit ▸ hover) (by rwa [hvalue, List.append_assoc] at hle)
  | past hover hle =>
    refine .past hover (Nat.le_trans hle ?_)
    simp only [size_append]
    omega

theorem Appended.refl (before : BoundedString) : Appended (ε := ε) before [] (.ok before) :=
  .whole (List.append_nil _).symm rfl

theorem appended_pushStr (hgrants : ∀ additional, tryReserveExact additional = none)
    (output : BoundedString) (value : List Char) :
    Appended output value (output.pushStr tryReserveExact value) := by
  unfold BoundedString.pushStr
  split
  · dsimp only
    split
    · rw [hgrants]
      exact .whole rfl rfl
    · exact .whole rfl rfl
  · rename_i hfits
    exact .past (Nat.lt_of_not_le hfits) (Nat.le_refl _)

end Append

section Bytes

theorem toNat_beq (first other : Char) : (first.toNat == other.toNat) = decide (first = other) := by
  by_cases h : first = other
  · simp [h]
  · have hne : first.toNat ≠ other.toNat := fun heq => h (Char.toNat_inj.mp heq)
    simp [h, hne]

theorem agree_close :
    Agree (fun byte => byte.toNat == 125) (fun first => decide (first = '\x7d')) := by
  have hagree := agree_of_code (fun code => code == 125) false fun code hcode => by
    simp only [beq_eq_false_iff_ne]
    omega
  intro first byte hmem
  exact (hagree first byte hmem).trans (toNat_beq first '\x7d')

theorem agree_word :
    Agree (fun byte => isWord byte.toNat) (fun first => isWord first.toNat) := by
  apply agree_of_code isWord false
  intro code hcode
  simp only [isWord, isDigit, Bool.or_eq_false_iff, Bool.and_eq_false_iff, decide_eq_false_iff_not,
    beq_eq_false_iff_ne]
  omega

theorem bytes_ne_dollar {first : Char} (h : first ≠ '$') :
    ∀ byte ∈ String.utf8EncodeChar first, byte ≠ 36 := by
  intro byte hmem hbyte
  subst hbyte
  rcases bytes_cases first with ⟨-, hbytes⟩ | ⟨-, hbytes⟩
  · exact h (Char.toNat_inj.mp (hbytes 36 hmem).symm)
  · exact absurd (hbytes 36 hmem) (by decide)

end Bytes

section Reference

variable {before rest name behind : List Char}

theorem bytes_at (before rest : List Char) :
    (encode (before ++ rest))[size before]? = (encode rest)[0]? :=
  getElem?_encode before rest 0

theorem head_encode (first : Char) {code : UInt8} (hcode : code.toNat < 128)
    (hfirst : first.toNat = code.toNat) (rest : List Char) :
    (encode rest)[0]? = some code ↔ rest.head? = some first := by
  cases rest with
  | nil => simp
  | cons other rest =>
    obtain ⟨byte, bytes, hbytes⟩ := List.exists_cons_of_ne_nil
      (String.utf8EncodeChar_ne_nil (c := other))
    rw [encode_cons, hbytes]
    simp only [List.cons_append, List.getElem?_cons_zero, Option.some.injEq, List.head?_cons]
    constructor
    · intro hbyte
      subst hbyte
      rcases bytes_cases other with ⟨-, hall⟩ | ⟨-, hall⟩
      · exact Char.toNat_inj.mp ((hall byte (by simp [hbytes])).symm.trans hfirst.symm)
      · have hhigh := hall byte (by simp [hbytes])
        omega
    · intro hother
      subst hother
      rcases bytes_cases other with ⟨-, hall⟩ | ⟨hhigh, -⟩
      · exact UInt8.toNat_inj.mp ((hall byte (by simp [hbytes])).trans hfirst)
      · omega

structure Delimited (rest name behind : List Char) (referenceStart stop nameStart next : Nat)
    (opening closing : List Char) : Prop where
  spells : rest = opening ++ (name ++ (closing ++ behind))
  nameStart_eq : nameStart = referenceStart + size opening
  stop_eq : stop = nameStart + size name
  next_eq : next = stop + size closing

theorem split_at_first {mark : Char} {inside : List Char} (h : mark ∈ inside) :
    inside = inside.takeWhile (· ≠ mark) ++ mark :: (inside.dropWhile (· ≠ mark)).tail := by
  induction inside with
  | nil => cases h
  | cons first inside ih =>
    by_cases hfirst : first = mark
    · simp [hfirst]
    · have hmem : mark ∈ inside := (List.mem_cons.mp h).resolve_left (Ne.symm hfirst)
      rw [List.takeWhile_cons_of_pos (by simpa using hfirst),
        List.dropWhile_cons_of_pos (by simpa using hfirst), List.cons_append, ← ih hmem]

theorem size_eq_zero {name : List Char} : size name = 0 ↔ name = [] := by
  cases name with
  | nil => simp
  | cons first name =>
    have hpos := Char.utf8Size_pos first
    simp only [size_cons, reduceCtorEq, iff_false]
    omega

theorem referenceEnd_braced (before inside : List Char) :
    referenceEnd (encode (before ++ '\x7b' :: inside)) (size before) =
      if '\x7d' ∈ inside then
        some (size before + 1 + size (inside.takeWhile (· ≠ '\x7d')), size before + 1, true)
      else none := by
  have hopen : (encode (before ++ '\x7b' :: inside))[size before]? = some 123 :=
    (bytes_at _ _).trans ((head_encode '\x7b' (by decide) rfl _).mpr rfl)
  have hdrop : (encode (before ++ '\x7b' :: inside)).drop (size before + 1) = encode inside := by
    have hsize : size before + 1 = size (before ++ ['\x7b']) := by
      rw [size_append]
      rfl
    rw [hsize, List.append_cons before '\x7b' inside, drop_encode]
  unfold referenceEnd
  simp only [hopen, if_true, hdrop, findIdx?_encode agree_close]
  by_cases hmem : '\x7d' ∈ inside
  · have hany : (inside.any fun first => decide (first = '\x7d')) = true := by simpa using hmem
    simp only [hany, hmem, if_true, ← decide_not]
  · have hany : ¬(inside.any fun first => decide (first = '\x7d')) = true := by simpa using hmem
    simp only [hany, hmem, if_false, Bool.false_eq_true]

theorem referenceEnd_bare (before : List Char) (h : rest.head? ≠ some '\x7b') :
    referenceEnd (encode (before ++ rest)) (size before) =
      if (rest.takeWhile fun first => isWord first.toNat) = [] then none
      else some (size before + size (rest.takeWhile fun first => isWord first.toNat),
        size before, false) := by
  have hopen : (encode (before ++ rest))[size before]? ≠ some 123 := fun hbyte =>
    h ((head_encode '\x7b' (by decide) rfl _).mp ((bytes_at _ _).symm.trans hbyte))
  unfold referenceEnd
  simp only [hopen, if_false, drop_encode, takeWhile_encode agree_word, length_encode]
  by_cases hname : (rest.takeWhile fun first => isWord first.toNat) = []
  · simp [hname]
  · have hsize := mt size_eq_zero.mp hname
    rw [if_neg hname, if_neg (by omega)]

theorem reference_braced (inside : List Char) :
    reference ('\x7b' :: inside) =
      if '\x7d' ∈ inside then
        some (inside.takeWhile (· ≠ '\x7d'), (inside.dropWhile (· ≠ '\x7d')).tail)
      else none := rfl

theorem reference_bare (h : rest.head? ≠ some '\x7b') :
    reference rest =
      if (rest.takeWhile fun first => isWord first.toNat) = [] then none
      else some (rest.takeWhile fun first => isWord first.toNat,
        rest.dropWhile fun first => isWord first.toNat) :=
  if_neg h

theorem referenceEnd_none (before : List Char) (h : reference rest = none) :
    referenceEnd (encode (before ++ rest)) (size before) = none := by
  by_cases hopen : rest.head? = some '\x7b'
  · obtain ⟨inside, rfl⟩ := List.head?_eq_some_iff.mp hopen
    rw [reference_braced] at h
    rw [referenceEnd_braced]
    simpa using h
  · rw [reference_bare hopen] at h
    rw [referenceEnd_bare before hopen]
    simpa using h

theorem referenceEnd_some (before : List Char) (h : reference rest = some (name, behind)) :
    ∃ stop nameStart braced opening closing,
      referenceEnd (encode (before ++ rest)) (size before) = some (stop, nameStart, braced) ∧
        Delimited rest name behind (size before) stop nameStart (if braced then stop + 1 else stop)
          opening closing := by
  by_cases hopen : rest.head? = some '\x7b'
  · obtain ⟨inside, rfl⟩ := List.head?_eq_some_iff.mp hopen
    rw [reference_braced] at h
    by_cases hmem : '\x7d' ∈ inside
    · rw [if_pos hmem] at h
      cases h
      refine ⟨_, _, true, ['\x7b'], ['\x7d'], by rw [referenceEnd_braced, if_pos hmem], ?_⟩
      exact ⟨congrArg ('\x7b' :: ·) (split_at_first hmem), rfl, rfl, rfl⟩
    · rw [if_neg hmem] at h
      cases h
  · rw [reference_bare hopen] at h
    by_cases hname : (rest.takeWhile fun first => isWord first.toNat) = []
    · rw [if_pos hname] at h
      cases h
    · rw [if_neg hname] at h
      cases h
      refine ⟨_, _, false, [], [], by rw [referenceEnd_bare before hopen, if_neg hname], ?_⟩
      exact ⟨(List.takeWhile_append_dropWhile).symm, rfl, rfl, rfl⟩

end Reference

def Captures.group (captures : Captures text) (name : List Char) : List Char :=
  ((captures.find name).map Span.matched).getD []

section Walk

variable {captures : Captures text} {cursor literalStart fuel : Nat} {output : BoundedString}
  {before inside behind : List Char}

theorem sliceOr_eq {start stop : Nat} (htext : text = before ++ (inside ++ behind))
    (hstart : start = size before) (hstop : stop = size before + size inside) :
    sliceOr (ε := ε) text start stop = .ok inside := by
  unfold sliceOr
  rw [slice_eq htext hstart hstop]

theorem nextExpansion_literal {byte : UInt8} (hbyte : (encode replacement)[cursor]? = some byte)
    (hne : byte ≠ 36) :
    nextExpansion tryReserveExact captures replacement output cursor literalStart =
      .ok (.skipped, literalStart, output) := by
  simp only [nextExpansion, hbyte, if_pos hne]

theorem nextExpansion_alone (hbyte : (encode replacement)[cursor]? = some 36)
    (hnext : (encode replacement)[cursor + 1]? ≠ some 36)
    (hnone : referenceEnd (encode replacement) (cursor + 1) = none) :
    nextExpansion tryReserveExact captures replacement output cursor literalStart =
      .ok (.skipped, literalStart, output) := by
  simp only [nextExpansion, hbyte, ne_eq, not_true_eq_false, if_false, hnext, hnone]

theorem expandFrom_skipped (hlt : cursor < size replacement)
    (h : nextExpansion tryReserveExact captures replacement output cursor literalStart =
      .ok (.skipped, literalStart, output)) :
    expandFrom tryReserveExact captures replacement (fuel + 1) cursor literalStart output =
      expandFrom tryReserveExact captures replacement fuel (cursor + 1) literalStart output := by
  rw [expandFrom, if_pos hlt, h]
  rfl

theorem expandFrom_literal (count : Nat) (hbytes : ∀ ahead < count, ∃ byte,
      (encode replacement)[cursor + ahead]? = some byte ∧ byte ≠ 36) :
    expandFrom tryReserveExact captures replacement (fuel + count) cursor literalStart output =
      expandFrom tryReserveExact captures replacement fuel (cursor + count) literalStart output := by
  induction count generalizing cursor with
  | zero => rfl
  | succ count ih =>
    obtain ⟨byte, hbyte, hne⟩ := hbytes 0 (Nat.succ_pos _)
    have hlt : cursor < size replacement := by
      rw [← length_encode]
      exact (List.getElem?_eq_some_iff.mp hbyte).1
    rw [← Nat.add_assoc, expandFrom_skipped hlt (nextExpansion_literal hbyte hne), ih]
    · rw [Nat.add_assoc, Nat.add_comm 1 count]
    · intro ahead hahead
      obtain ⟨byte, hbyte, hne⟩ := hbytes (ahead + 1) (Nat.succ_lt_succ hahead)
      exact ⟨byte, by rwa [Nat.add_assoc, Nat.add_comm 1 ahead], hne⟩

theorem appended_group (hgrants : ∀ additional, tryReserveExact additional = none)
    (captures : Captures text) (name : List Char) (output : BoundedString) :
    Appended output (captures.group name)
      (pushGroup tryReserveExact (captures.find name) output) := by
  unfold Captures.group
  cases captures.find name with
  | none => exact .refl output
  | some matched => exact appended_pushStr hgrants output matched.matched

theorem appended_last (hgrants : ∀ additional, tryReserveExact additional = none)
    (hreplacement : replacement = before ++ inside) :
    Appended output inside (sliceOr replacement (size before) (size replacement) >>= fun last =>
      output.pushStr tryReserveExact last) := by
  have hslice : sliceOr (ε := ε) replacement (size before) (size replacement) = .ok inside :=
    sliceOr_eq (hreplacement.trans (congrArg (before ++ ·) (List.append_nil inside).symm)) rfl
      (by rw [hreplacement, size_append])
  rw [hslice]
  exact appended_pushStr hgrants output inside

structure AtDollar (replacement before inside rest : List Char) (cursor : Nat) : Prop where
  lt : cursor < size replacement
  byte : (encode replacement)[cursor]? = some 36
  next_iff : (encode replacement)[cursor + 1]? = some 36 ↔ rest.head? = some '$'
  ahead : replacement = (before ++ inside ++ ['$']) ++ rest
  beyond : size (before ++ inside ++ ['$']) = cursor + 1

theorem atDollar {rest : List Char} (hreplacement : replacement = before ++ (inside ++ '$' :: rest)) :
    AtDollar replacement before inside rest (size before + size inside) := by
  have hahead : replacement = (before ++ inside ++ ['$']) ++ rest := by
    rw [hreplacement]
    simp
  have hbeyond : size (before ++ inside ++ ['$']) = size before + size inside + 1 := by
    rw [size_append, size_append]
    rfl
  refine ⟨?_, ?_, ?_, hahead, hbeyond⟩
  · rw [hahead, size_append, hbeyond]
    omega
  · have htext : replacement = (before ++ inside) ++ '$' :: rest := by
      rw [hreplacement, List.append_assoc]
    rw [htext, ← size_append, bytes_at]
    rfl
  · rw [hahead, ← hbeyond, bytes_at]
    exact head_encode '$' (by decide) rfl rest

/-- The walk over an escape writes the literal ahead of it and one dollar sign. -/
theorem expandFrom_escape (hreplacement : replacement = before ++ (inside ++ '$' :: '$' :: behind)) :
    expandFrom tryReserveExact captures replacement (fuel + 1) (size before + size inside)
        (size before) output =
      output.pushStr tryReserveExact inside >>= fun output =>
        output.pushStr tryReserveExact ['$'] >>= fun output =>
          expandFrom tryReserveExact captures replacement fuel (size before + size inside + 2)
            (size before + size inside + 2) output := by
  obtain ⟨hlt, hbyte, hnext, -, -⟩ := atDollar hreplacement
  replace hnext := hnext.mpr rfl
  have hslice : sliceOr (ε := ε) replacement (size before) (size before + size inside) =
      .ok inside := sliceOr_eq hreplacement rfl rfl
  rw [expandFrom, if_pos hlt]
  simp only [nextExpansion, hbyte, ne_eq, not_true_eq_false, if_false, hnext, if_true, hslice,
    bind_assoc, pure_bind]
  rfl

/-- The walk over a reference writes the literal ahead of it and the group it names, and goes on
behind it. -/
theorem appended_reference {rest name : List Char}
    (hgrants : ∀ additional, tryReserveExact additional = none)
    (hreplacement : replacement = before ++ (inside ++ '$' :: rest))
    (hhead : rest.head? ≠ some '$') (hreference : reference rest = some (name, behind))
    (hbehind : ∀ (done : List Char) (output : BoundedString), replacement = done ++ behind →
      Appended output (expand captures.group behind) (expandFrom tryReserveExact captures
        replacement fuel (size done) (size done) output)) :
    Appended output (inside ++ (captures.group name ++ expand captures.group behind))
      (expandFrom tryReserveExact captures replacement (fuel + 1) (size before + size inside)
        (size before) output) := by
  obtain ⟨hlt, hbyte, hnext, hahead, hcursor⟩ := atDollar hreplacement
  replace hnext := mt hnext.mp hhead
  have hslice : sliceOr (ε := ε) replacement (size before) (size before + size inside) =
      .ok inside := sliceOr_eq hreplacement rfl rfl
  obtain ⟨stop, nameStart, braced, opening, closing, hend, hdelimited⟩ :=
    referenceEnd_some (before ++ inside ++ ['$']) hreference
  rw [← hahead, hcursor] at hend
  obtain ⟨hspells, hname, hstop, hbeyond⟩ := hdelimited
  have htext : replacement =
      (before ++ inside ++ ['$'] ++ opening) ++ (name ++ (closing ++ behind)) := by
    rw [hahead, hspells]
    simp
  have hnamed : sliceOr (ε := ε) replacement nameStart stop = .ok name :=
    sliceOr_eq htext (by rw [hname, ← size_append])
      (by rw [hstop, hname, ← size_append])
  generalize hbeyondName : (if braced = true then stop + 1 else stop) = next at hbeyond
  have hdone : replacement = (before ++ inside ++ ['$'] ++ opening ++ name ++ closing) ++ behind := by
    rw [htext]
    simp
  have hsize : next = size (before ++ inside ++ ['$'] ++ opening ++ name ++ closing) := by
    rw [hbeyond, hstop, hname]
    simp only [size_append]
  rw [expandFrom, if_pos hlt]
  simp only [nextExpansion, hbyte, ne_eq, not_true_eq_false, if_false, hnext, hend, hslice,
    hnamed, hbeyondName, ok_bind, bind_assoc, pure_bind]
  refine (appended_pushStr hgrants output inside).bind fun literal => ?_
  refine (appended_group hgrants captures name literal).bind fun named => ?_
  by_cases hover : (encode replacement).length ≤ next
  · have hempty : behind = [] := by
      rw [length_encode, hdone, size_append, ← hsize] at hover
      exact size_eq_zero.mp (by omega)
    subst hempty
    rw [if_pos hover, hsize, expand]
    exact appended_last hgrants hdone
  · rw [if_neg hover, hsize]
    exact hbehind _ named hdone

theorem size_reference {rest name : List Char} (h : reference rest = some (name, behind)) :
    size behind ≤ size rest := by
  obtain ⟨_, _, _, opening, closing, -, hdelimited⟩ := referenceEnd_some [] h
  rw [hdelimited.spells]
  simp only [size_append]
  omega

theorem expandFrom_appended (hgrants : ∀ additional, tryReserveExact additional = none)
    {rest : List Char} (hfuel : size rest < fuel)
    (hreplacement : replacement = before ++ (inside ++ rest)) :
    Appended output (inside ++ expand captures.group rest)
      (expandFrom tryReserveExact captures replacement fuel (size before + size inside)
        (size before) output) := by
  induction hlength : rest.length using Nat.strongRecOn
    generalizing rest before inside fuel output with
  | _ length ih =>
  subst hlength
  obtain ⟨fuel, rfl⟩ := Nat.exists_eq_add_one_of_ne_zero (Nat.ne_of_gt (Nat.zero_lt_of_lt hfuel))
  have hahead : replacement = (before ++ inside) ++ rest := by
    rw [hreplacement, List.append_assoc]
  cases rest with
  | nil =>
    have hlt : ¬size before + size inside < size replacement := by
      rw [hreplacement, List.append_nil, size_append]
      exact Nat.lt_irrefl _
    rw [expandFrom, if_neg hlt, expand, List.append_nil]
    exact appended_last hgrants (by rw [hreplacement, List.append_nil])
  | cons first rest =>
    have hfirst := Char.utf8Size_pos first
    rw [size_cons] at hfuel
    by_cases hdollar : first = '$'
    · subst hdollar
      have hone : Char.utf8Size '$' = 1 := rfl
      rw [expand, if_pos rfl]
      by_cases hhead : rest.head? = some '$'
      · obtain ⟨behind, rfl⟩ := List.head?_eq_some_iff.mp hhead
        rw [if_pos hhead, List.tail_cons, expandFrom_escape hreplacement]
        refine (appended_pushStr hgrants output inside).bind fun literal => ?_
        refine (appended_pushStr hgrants literal ['$']).bind fun escaped => ?_
        have hdone : replacement = (before ++ inside ++ ['$', '$']) ++ ([] ++ behind) := by
          rw [hahead]
          simp
        have hsize : size before + size inside + 2 = size (before ++ inside ++ ['$', '$']) := by
          rw [size_append, size_append]
          rfl
        rw [hsize]
        have hless : size behind < fuel := by
          rw [size_cons] at hfuel
          omega
        have hshort : behind.length < ('$' :: '$' :: behind).length := by
          simp only [List.length_cons]
          omega
        exact ih behind.length hshort hless hdone rfl
      · rw [if_neg hhead]
        split
        · rename_i name behind hreference
          refine appended_reference hgrants hreplacement hhead hreference fun done next hdone => ?_
          have hlength := length_reference hreference
          have hsize := size_reference hreference
          have hwhole : replacement = done ++ ([] ++ behind) := hdone
          exact ih behind.length (by simp only [List.length_cons]; omega) (by omega) hwhole rfl
        · rename_i hnone
          obtain ⟨hlt, hbyte, hnext, hdone, hbeyond⟩ := atDollar hreplacement
          have hend := referenceEnd_none (before ++ inside ++ ['$']) hnone
          rw [← hdone, hbeyond] at hend
          rw [expandFrom_skipped hlt (nextExpansion_alone hbyte (mt hnext.mp hhead) hend),
            List.append_cons]
          have hcursor : size before + size inside + 1 = size before + size (inside ++ ['$']) := by
            rw [size_append, Nat.add_assoc]
            rfl
          rw [hcursor]
          exact ih rest.length (by simp) (by omega) (by rw [hdone]; simp) rfl
    · rw [expand, if_neg hdollar, List.append_cons]
      have hdone : replacement = before ++ ((inside ++ [first]) ++ rest) := by
        rw [hreplacement]
        simp
      have hbytes : ∀ ahead < first.utf8Size, ∃ byte,
          (encode replacement)[size before + size inside + ahead]? = some byte ∧ byte ≠ 36 := by
        intro at_ hat
        rw [← String.length_utf8EncodeChar] at hat
        refine ⟨_, ?_, bytes_ne_dollar hdollar _ (List.getElem_mem hat)⟩
        rw [hahead, ← size_append, getElem?_encode, encode_cons, List.getElem?_append_left hat,
          List.getElem?_eq_getElem hat]
      have hcursor : size before + size inside + first.utf8Size =
          size before + size (inside ++ [first]) := by
        simp only [size_append, size_cons, size_nil, Nat.add_zero, Nat.add_assoc]
      obtain ⟨left, hleft⟩ : ∃ left, fuel + 1 = left + first.utf8Size :=
        ⟨fuel + 1 - first.utf8Size, by omega⟩
      rw [hleft, expandFrom_literal _ hbytes, hcursor]
      exact ih rest.length (by simp) (by omega) hdone rfl

theorem appended_expandReplacement (hgrants : ∀ additional, tryReserveExact additional = none)
    (captures : Captures text) (replacement : List Char) (output : BoundedString) :
    Appended output (expand captures.group replacement)
      (expandReplacement tryReserveExact captures replacement output) := by
  have hwhole : replacement = [] ++ ([] ++ replacement) := rfl
  exact expandFrom_appended hgrants (Nat.lt_succ_self _) hwhole

end Walk

def replaced (text template : List Char) : Nat → List (Captures text) → List Char
  | done, [] => text.drop done
  | done, groups :: rest =>
    (text.take groups.whole.before.length).drop done ++ (expand groups.group template ++
      replaced text template (groups.whole.before ++ groups.whole.matched).length rest)

def counted {α : Type} (count remaining : Nat) (found : List α) : List α :=
  if count = 0 then found else found.take remaining

section Splice

variable {done left before rest : List Char}

theorem exists_gap (h : done ++ left = before ++ rest) (hle : size done ≤ size before) :
    ∃ gap, before = done ++ gap ∧ left = gap ++ rest := by
  rcases List.append_eq_append_iff.mp h with ⟨gap, rfl, rfl⟩ | ⟨beyond, rfl, rfl⟩
  · exact ⟨gap, rfl, rfl⟩
  · rw [size_append] at hle
    have hover : beyond = [] := size_eq_zero.mp (by omega)
    subst hover
    exact ⟨[], by simp, by simp⟩

theorem take_ahead (h : text = before ++ rest) : text.take before.length = before := by
  rw [h, List.take_left]

theorem drop_ahead (h : text = before ++ rest) : text.drop before.length = rest := by
  rw [h, List.drop_left]

theorem counted_cons {α : Type} {count remaining : Nat} (hremaining : count ≠ 0 → 0 < remaining)
    (first : α) (rest : List α) :
    counted count remaining (first :: rest) =
      first :: (if count ≠ 0 ∧ remaining - 1 = 0 then []
        else counted count (if count ≠ 0 then remaining - 1 else remaining) rest) := by
  unfold counted
  by_cases hcount : count = 0
  · simp [hcount]
  · obtain ⟨left, rfl⟩ := Nat.exists_eq_add_one_of_ne_zero (Nat.ne_of_gt (hremaining hcount))
    by_cases hleft : left = 0
    · simp [hcount, hleft]
    · simp [hcount, hleft]

theorem appended_replaceFrom (hgrants : ∀ additional, tryReserveExact additional = none)
    {found : List (Captures text)} {count remaining : Nat} {output : BoundedString}
    (hordered : found.Pairwise fun first next => first.whole.stop ≤ next.whole.start)
    (hahead : ∀ next ∈ found, size done ≤ next.whole.start) (htext : text = done ++ left)
    (hremaining : count ≠ 0 → 0 < remaining) :
    Appended output (replaced text replacement done.length (counted count remaining found))
      (BoundedRegex.replaceFrom tryReserveExact text replacement count found (size done) remaining
        output) := by
  induction found generalizing done left remaining output with
  | nil =>
    have hnone : counted count remaining ([] : List (Captures text)) = [] := by
      simp [counted]
    rw [hnone, replaced, drop_ahead htext]
    exact appended_last hgrants htext
  | cons groups rest ih =>
    obtain ⟨hfirst, hordered⟩ := List.pairwise_cons.mp hordered
    obtain ⟨gap, hgap, hleft⟩ := exists_gap (htext.symm.trans groups.whole.spells)
      (hahead groups (List.mem_cons_self ..))
    have hslice : sliceOr (ε := ε) text (size done) groups.whole.start = .ok gap :=
      sliceOr_eq (htext.trans (congrArg (done ++ ·) hleft)) rfl
        (by rw [Span.start, hgap, size_append])
    have htake : (text.take groups.whole.before.length).drop done.length = gap := by
      rw [take_ahead groups.whole.spells, drop_ahead hgap]
    have hsplit : text = (groups.whole.before ++ groups.whole.matched) ++ groups.whole.behind :=
      groups.whole.spells.trans (List.append_assoc ..).symm
    have hstop : groups.whole.stop = size (groups.whole.before ++ groups.whole.matched) := by
      rw [Span.stop, size_append]
    rw [counted_cons hremaining, replaced, htake]
    simp only [BoundedRegex.replaceFrom, groups.get_zero, hslice, ok_bind]
    refine (appended_pushStr hgrants output gap).bind fun ahead => ?_
    refine (appended_expandReplacement hgrants groups replacement ahead).bind fun expanded => ?_
    by_cases hover : count ≠ 0 ∧ remaining - 1 = 0
    · rw [if_pos hover, if_pos hover, replaced, hstop, drop_ahead hsplit]
      exact appended_last hgrants hsplit
    · rw [if_neg hover, if_neg hover, hstop]
      refine ih hordered (fun next hnext => ?_) hsplit ?_
      · rw [← hstop]
        exact hfirst next hnext
      · intro hcount
        rw [if_pos hcount]
        omega

end Splice

/-- The whole result where the text and the result are within their limits, and a refusal that
names the limit passed where they are not. -/
structure Exact (config : PatternConfig) (text result : List Char)
    (outcome : Except (Stop ε) (List Char)) : Prop where
  ok_iff : ∀ output, outcome = .ok output ↔
    size text ≤ config.inputLimit ∧ size result ≤ config.outputLimit ∧ output = result
  refusal : ∀ stop, outcome = .error stop →
    (config.inputLimit < size text ∧
        stop = .refused (.inputTooLarge config.inputLimit (size text))) ∨
      ∃ attempted, config.outputLimit < attempted ∧ attempted ≤ size result ∧
        stop = .refused (.outputTooLarge config.outputLimit attempted)

theorem Exact.of_appended {config : PatternConfig} {result : List Char}
    {answer : Except (Stop ε) BoundedString} (hinput : size text ≤ config.inputLimit)
    (h : Appended (.new config.outputLimit) result answer) :
    Exact config text result (answer >>= fun output => pure output.value) := by
  cases h with
  | @whole after hvalue hlimit =>
    have hresult : after.value = result := hvalue
    have hfits : size result ≤ config.outputLimit := by
      rw [← hresult]
      exact Nat.le_trans after.fits (Nat.le_of_eq hlimit)
    refine ⟨fun output => ?_, fun stop hstop => by cases hstop⟩
    rw [ok_bind, pure_eq_ok, hresult]
    exact ⟨fun heq => ⟨hinput, hfits, heq.symm⟩, fun hall => hall.2.2.symm⟩
  | past hover hle =>
    refine ⟨fun output => ⟨fun hok => (by cases hok), fun hall => ?_⟩, fun stop hstop => ?_⟩
    · exact absurd (Nat.le_trans hle hall.2.1) (Nat.not_le_of_lt hover)
    · cases hstop
      exact .inr ⟨_, hover, hle, rfl⟩

theorem replaceMatches_exact (hgrants : ∀ additional, tryReserveExact additional = none)
    (regex : BoundedRegex) (text replacement : List Char) (count : Nat) :
    Exact regex.config text
      (replaced text replacement 0 (counted count count (regex.engine.capturesIter text)))
      (regex.replaceMatches tryReserveExact text replacement count) := by
  unfold BoundedRegex.replaceMatches BoundedRegex.checkInput
  by_cases hinput : regex.config.inputLimit < size text
  · rw [if_pos hinput, error_bind]
    refine ⟨fun output => ⟨fun hok => (by cases hok), fun hall => ?_⟩, fun stop hstop => ?_⟩
    · exact absurd hall.1 (Nat.not_le_of_lt hinput)
    · cases hstop
      exact .inl ⟨hinput, rfl⟩
  · rw [if_neg hinput, ok_bind]
    have hinput := Nat.le_of_not_lt hinput
    have hordered := regex.engine.ordered text
    cases hfound : regex.engine.capturesIter text with
    | nil =>
      have hresult : replaced text replacement 0 (counted count count []) = text := by
        simp [counted, replaced]
      rw [hresult]
      dsimp only
      by_cases hover : regex.config.outputLimit < size text
      · rw [if_pos hover]
        refine ⟨fun output => ⟨fun hok => (by cases hok), fun hall => ?_⟩, fun stop hstop => ?_⟩
        · exact absurd hall.2.1 (Nat.not_le_of_lt hover)
        · cases hstop
          exact .inr ⟨_, hover, Nat.le_refl _, rfl⟩
      · rw [if_neg hover]
        refine ⟨fun output => ?_, fun stop hstop => by cases hstop⟩
        rw [Except.ok.injEq]
        exact ⟨fun heq => ⟨hinput, Nat.le_of_not_lt hover, heq.symm⟩, fun hall => hall.2.2.symm⟩
    | cons first rest =>
      rw [hfound] at hordered
      have hwhole : text = [] ++ text := rfl
      exact Exact.of_appended hinput (appended_replaceFrom hgrants hordered
        (fun _ _ => Nat.zero_le _) hwhole Nat.pos_of_ne_zero)

/-- A replacement is the text with its first match, or with every match, replaced by the template
expanded, or it is refused; and no slice is taken inside of a character. -/
theorem replacement_exact (hgrants : ∀ additional, tryReserveExact additional = none)
    (regex : BoundedRegex) (text replacement : List Char) :
    Exact regex.config text
        (replaced text replacement 0 ((regex.engine.capturesIter text).take 1))
        (regex.replace tryReserveExact text replacement) ∧
      Exact regex.config text (replaced text replacement 0 (regex.engine.capturesIter text))
        (regex.replaceAll tryReserveExact text replacement) ∧
      ∀ count, Exact regex.config text
        (replaced text replacement 0 (if count = 0 then regex.engine.capturesIter text
          else (regex.engine.capturesIter text).take count))
        (regex.replaceMatches tryReserveExact text replacement count) := by
  have hexact := replaceMatches_exact hgrants regex text replacement
  exact ⟨hexact 1, hexact 0, hexact⟩

section Letters

def headLetter : (text : List Char) → List (Captures text)
  | 'a' :: rest =>
    let whole : Span ('a' :: rest) := ⟨[], ['a'], rest, rfl⟩
    [⟨fun group => if group = 0 then some whole else none, fun _ => none, whole, rfl⟩]
  | _ => []

theorem headLetter_ordered (text : List Char) :
    (headLetter text).Pairwise fun found next => found.whole.stop ≤ next.whole.start := by
  unfold headLetter
  split
  · exact List.pairwise_singleton _ _
  · exact List.Pairwise.nil

theorem replacement_exact_letter :
    Exact (ε := Unit) ⟨8, 8⟩ ['a', 'b'] ['a', '$', 'b']
      (BoundedRegex.replaceAll ⟨⟨headLetter, headLetter_ordered⟩, 8, 8⟩ (fun _ => none) ['a', 'b']
        ['$', '0', '$', '$']) := by
  have hresult : replaced ['a', 'b'] ['$', '0', '$', '$'] 0 (headLetter ['a', 'b']) =
      ['a', '$', 'b'] := by
    simp [replaced, headLetter, expand, reference, Captures.group, Captures.find, parseUsize, isWord,
      isDigit, List.takeWhile, List.dropWhile]
  have hexact := (replacement_exact (ε := Unit) (fun _ => rfl)
    ⟨⟨headLetter, headLetter_ordered⟩, 8, 8⟩ ['a', 'b']
    ['$', '0', '$', '$']).2.1
  rwa [hresult] at hexact

end Letters

end LogicalWorks.Pattern
