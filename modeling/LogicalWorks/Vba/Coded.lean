import LogicalWorks.Vba.Compress

/-! The items a chunk is coded of: what its matches compare, and what its budgets leave. -/
namespace LogicalWorks.Vba

open Window

theorem matchLength_spec (data : Bytes) (candidate place : Nat) (left : Nat) : ∀ length,
    length ≤ matchLength data candidate place left length ∧
      matchLength data candidate place left length ≤ length + left ∧
        ∀ step, length ≤ step → step < matchLength data candidate place left length →
          data[candidate + step]? = data[place + step]? ∧ place + step < data.length := by
  induction left with
  | zero =>
    intro length
    exact ⟨Nat.le_refl _, Nat.le_refl _, fun step hle hlt => absurd hle (Nat.not_le.mpr hlt)⟩
  | succ left ih =>
    intro length
    have hstop : length ≤ length ∧ length ≤ length + (left + 1) ∧
        ∀ step, length ≤ step → step < length →
          data[candidate + step]? = data[place + step]? ∧ place + step < data.length :=
      ⟨Nat.le_refl _, Nat.le_add_right _ _, fun step hle hlt => absurd hle (Nat.not_le.mpr hlt)⟩
    rw [matchLength]
    split
    · rename_i first second hfirst hsecond
      by_cases hsame : first = second
      · rw [if_pos hsame]
        obtain ⟨hlow, hhigh, hstep⟩ := ih (length + 1)
        refine ⟨by omega, by omega, fun step hle hlt => ?_⟩
        rcases Nat.eq_or_lt_of_le hle with rfl | hmore
        · refine ⟨by rw [hfirst, hsecond, hsame], ?_⟩
          exact (List.getElem?_eq_some_iff.mp hsecond).1
        · exact hstep step hmore hlt
      · rw [if_neg hsame]
        exact hstop
    · exact hstop

structure Found (data : Bytes) (place start : Nat) (found : Nat × Nat) : Prop where
  length : found.1 ≤ maxMatch
  back : 0 < found.2
  within : found.2 ≤ place - start
  reach : found.2 ≤ maxOffset
  room : place + found.1 ≤ data.length
  same : ∀ step < found.1, data[place - found.2 + step]? = data[place + step]?

theorem foldl_longest {data : Bytes} {place start : Nat} (candidates : List Nat)
    (hcandidates : ∀ candidate ∈ candidates,
      start ≤ candidate ∧ candidate < place ∧ place ≤ candidate + maxOffset) :
    ∀ best : Nat × Nat, best = (0, 0) ∨ Found data place start best →
      candidates.foldl (fun best candidate =>
          let length := matchLength data candidate place maxMatch 0
          if best.1 < length then (length, place - candidate) else best) best = (0, 0) ∨
        Found data place start (candidates.foldl (fun best candidate =>
          let length := matchLength data candidate place maxMatch 0
          if best.1 < length then (length, place - candidate) else best) best) := by
  induction candidates with
  | nil => exact fun best h => h
  | cons candidate rest ih =>
    intro best hbest
    rw [List.foldl_cons]
    refine ih (fun other hother => hcandidates other (List.mem_cons_of_mem _ hother)) _ ?_
    dsimp only
    split
    · rename_i hlonger
      obtain ⟨hstart, hbefore, hreach⟩ := hcandidates candidate List.mem_cons_self
      obtain ⟨-, hmost, hsame⟩ := matchLength_spec data candidate place maxMatch 0
      have hplace : place - (place - candidate) = candidate := by omega
      refine .inr ⟨by omega, by omega, by omega, by omega, ?_, fun step hstep => ?_⟩
      · have hlast := hsame (matchLength data candidate place maxMatch 0 - 1) (Nat.zero_le _)
          (by omega)
        omega
      · rw [hplace]
        exact (hsame step (Nat.zero_le _) hstep).1
    · exact hbest

theorem longestMatch_spec (data : Bytes) (place start : Nat) :
    longestMatch data place start = (0, 0) ∨
      Found data place start (longestMatch data place start) := by
  unfold longestMatch
  refine foldl_longest _ (fun candidate hcandidate => ?_) _ (.inl rfl)
  rw [List.mem_range'_1] at hcandidate
  omega

def Fits : Item UInt8 → Prop
  | .literal _ => True
  | .copy offset length => 0 < offset ∧ offset ≤ maxOffset ∧ lengthBias ≤ length ∧ length ≤ maxMatch

def isCopy : Item UInt8 → Bool
  | .literal _ => false
  | .copy _ _ => true

def body : Item UInt8 → Bytes
  | .literal value => [value]
  | .copy offset length => tokenBytes ((offset - offsetBias) * 16 + (length - lengthBias))

def flagsOf : List (Item UInt8) → Nat
  | [] => 0
  | item :: rest => (isCopy item).toNat + 2 * flagsOf rest

def spellGroup (group : List (Item UInt8)) : Bytes :=
  UInt8.ofNat (flagsOf group) :: group.flatMap body

theorem flagsOf_lt (items : List (Item UInt8)) : flagsOf items < 2 ^ items.length := by
  induction items with
  | nil => exact Nat.one_pos
  | cons item rest ih =>
    have hbit := Bool.toNat_le (isCopy item)
    rw [flagsOf, List.length_cons, Nat.pow_succ]
    omega

theorem testBit_flagsOf (items : List (Item UInt8)) : ∀ position,
    (flagsOf items).testBit position = (items[position]?).any isCopy := by
  induction items with
  | nil => intro position; simp [flagsOf]
  | cons item rest ih =>
    intro position
    rw [flagsOf]
    cases position with
    | zero => cases hcopy : isCopy item <;> simp [Nat.testBit_zero, hcopy]
    | succ position =>
      rw [Nat.testBit_succ, List.getElem?_cons_succ, ← ih position]
      congr 1
      have hbit := Bool.toNat_le (isCopy item)
      omega

theorem flagsOf_append_copy (items : List (Item UInt8)) (offset length : Nat) :
    flagsOf (items ++ [.copy offset length]) = flagsOf items ||| 2 ^ items.length := by
  refine Nat.eq_of_testBit_eq fun position => ?_
  rw [Nat.testBit_or, testBit_flagsOf, testBit_flagsOf, Nat.testBit_two_pow]
  rcases Nat.lt_trichotomy position items.length with hlt | rfl | hgt
  · rw [List.getElem?_append_left hlt]
    have hne : items.length ≠ position := by omega
    simp [hne]
  · simp [isCopy]
  · have hne : items.length ≠ position := by omega
    rw [List.getElem?_eq_none (by simp; omega), List.getElem?_eq_none (by omega)]
    simp [hne]

theorem flagsOf_append_literal (items : List (Item UInt8)) (value : UInt8) :
    flagsOf (items ++ [.literal value]) = flagsOf items := by
  refine Nat.eq_of_testBit_eq fun position => ?_
  rw [testBit_flagsOf, testBit_flagsOf]
  rcases Nat.lt_trichotomy position items.length with hlt | rfl | hgt
  · rw [List.getElem?_append_left hlt]
  · simp [isCopy]
  · rw [List.getElem?_eq_none (by simp; omega), List.getElem?_eq_none (by omega)]

end LogicalWorks.Vba

/-! What the items of one chunk come to: groups of eight, the group begun, and the place the
budgets cut the chunk at. -/
namespace LogicalWorks.Vba

open Window

def matched (data : Bytes) (place start : Nat) : Nat := (longestMatch data place start).1

def unitCoded (length : Nat) : Nat := if lengthBias ≤ length then 2 else 1

def taken (length : Nat) : Nat := if lengthBias ≤ length then length else 1

theorem matched_le (data : Bytes) (place start : Nat) : matched data place start ≤ maxMatch := by
  rcases longestMatch_spec data place start with hnone | hfound
  · rw [matched, hnone]
    exact Nat.zero_le _
  · exact hfound.length

theorem unitCoded_le_two (length : Nat) : unitCoded length ≤ 2 := by
  unfold unitCoded
  split <;> decide

/-- Another item fits the chunk: the data goes on, and neither budget overflows. -/
def Room (data : Bytes) (start written place : Nat) : Prop :=
  place < data.length ∧
    written + unitCoded (matched data place start) + 1 ≤ chunkCoded ∧
      place - start + max (matched data place start) 1 ≤ chunkOutput

instance decidableRoom (data : Bytes) (start written place : Nat) :
    Decidable (Room data start written place) := inferInstanceAs (Decidable (_ ∧ _ ∧ _))

def cutFrom (data : Bytes) (start : Nat) : Nat → Nat → Nat → Nat → Nat
  | 0, _, _, place => place
  | rounds + 1, held, written, place =>
    if Room data start written place then
      let length := matched data place start
      cutFrom data start rounds (if held = 7 then 0 else held + 1)
        (written + unitCoded length + if held = 7 then 1 else 0) (place + taken length)
    else place

def cut (data : Bytes) (start : Nat) : Nat := cutFrom data start chunkOutput 0 0 start

def chunkStartsFrom (data : Bytes) : Nat → Nat → List Nat
  | 0, _ => []
  | rounds + 1, start =>
    if start < data.length then start :: chunkStartsFrom data rounds (cut data start) else []

def chunkStarts (data : Bytes) : List Nat := chunkStartsFrom data data.length 0

def itemAt (byte : UInt8) (found : Nat × Nat) : Item UInt8 :=
  if lengthBias ≤ found.1 then .copy found.2 found.1 else .literal byte

def Coding.add (coding : Coding) (item : Item UInt8) : Coding :=
  coding.push (isCopy item) (body item) item.length

structure Coding.Codes (coding : Coding) (data : Bytes) (start : Nat)
    (groups : List (List (Item UInt8))) (pending : List (Item UInt8)) : Prop where
  coded : coding.coded = groups.flatMap spellGroup
  group : coding.group = pending.flatMap body
  flags : coding.flags = flagsOf pending
  flagCount : coding.flagCount = pending.length
  full : ∀ group ∈ groups, group.length = 8
  few : pending.length < 8
  tiles : Tiles data start (groups.flatten ++ pending)
  fits : ∀ item ∈ groups.flatten ++ pending, Fits item
  place : coding.place = start + total (groups.flatten ++ pending)
  decoded : coding.decoded = coding.place - start

theorem Coding.Codes.begun (data : Bytes) (start : Nat) :
    (Coding.start start).Codes data start [] [] where
  coded := rfl
  group := rfl
  flags := rfl
  flagCount := rfl
  full := fun _ hin => absurd hin List.not_mem_nil
  few := Nat.zero_lt_succ _
  tiles := trivial
  fits := fun _ hin => absurd hin List.not_mem_nil
  place := rfl
  decoded := (Nat.sub_self start).symm

theorem flagsOf_append (items : List (Item UInt8)) (item : Item UInt8) :
    flagsOf (items ++ [item]) =
      if isCopy item then flagsOf items ||| 2 ^ items.length else flagsOf items := by
  cases item with
  | literal value => exact flagsOf_append_literal items value
  | copy offset length => exact flagsOf_append_copy items offset length

theorem Fits.length_pos {item : Item UInt8} (h : Fits item) : 0 < item.length := by
  cases item with
  | literal value => exact Nat.one_pos
  | copy offset length =>
    obtain ⟨-, -, hlong, -⟩ := h
    exact Nat.lt_of_lt_of_le (by decide) hlong

theorem Coding.Codes.add {coding : Coding} {data : Bytes} {start : Nat}
    {groups : List (List (Item UInt8))} {pending : List (Item UInt8)} {item : Item UInt8}
    (h : coding.Codes data start groups pending) (hmatches : item.Matches data coding.place)
    (hfits : Fits item) :
    ∃ groups' pending', (coding.add item).Codes data start groups' pending' := by
  have htiles : Tiles data start (groups.flatten ++ (pending ++ [item])) := by
    rw [← List.append_assoc, tiles_append]
    refine ⟨h.tiles, ?_, trivial⟩
    rw [← h.place]
    exact hmatches
  have hall : ∀ other ∈ groups.flatten ++ (pending ++ [item]), Fits other := by
    intro other hin
    rw [← List.append_assoc, List.mem_append, List.mem_singleton] at hin
    rcases hin with hin | rfl
    · exact h.fits other hin
    · exact hfits
  have hplace : coding.place + item.length =
      start + total (groups.flatten ++ (pending ++ [item])) := by
    rw [← List.append_assoc, total_append, h.place, total_cons, total_nil]
    omega
  have hdecoded : coding.decoded + item.length = coding.place + item.length - start := by
    have hle : start ≤ coding.place := by
      rw [h.place]
      exact Nat.le_add_right _ _
    rw [h.decoded]
    omega
  have hflags : (if isCopy item then coding.flags ||| 2 ^ coding.flagCount else coding.flags) =
      flagsOf (pending ++ [item]) := by
    rw [flagsOf_append, h.flags, h.flagCount]
  have hgroup : coding.group ++ body item = (pending ++ [item]).flatMap body := by
    rw [h.group, List.flatMap_append, List.flatMap_singleton]
  unfold Coding.add Coding.push
  dsimp only
  rw [hflags, hgroup, h.flagCount]
  by_cases hfull : 8 ≤ pending.length + 1
  · rw [if_pos hfull]
    refine ⟨groups ++ [pending ++ [item]], [], ?_⟩
    have hflatten : (groups ++ [pending ++ [item]]).flatten ++ [] =
        groups.flatten ++ (pending ++ [item]) := by
      rw [List.flatten_append, List.flatten_singleton, List.append_nil]
    constructor
    case coded =>
      change coding.coded ++ spellGroup (pending ++ [item]) = _
      rw [h.coded, List.flatMap_append, List.flatMap_singleton]
    case group => rfl
    case flags => rfl
    case flagCount => rfl
    case full =>
      intro group hin
      rw [List.mem_append, List.mem_singleton] at hin
      rcases hin with hin | rfl
      · exact h.full group hin
      · rw [List.length_append, List.length_singleton]
        have hfew := h.few
        omega
    case few => exact Nat.zero_lt_succ _
    case tiles => rwa [hflatten]
    case fits => rwa [hflatten]
    case place => rwa [hflatten]
    case decoded => exact hdecoded
  · rw [if_neg hfull]
    refine ⟨groups, pending ++ [item], ?_⟩
    constructor
    case coded => exact h.coded
    case group => rfl
    case flags => rfl
    case flagCount => rw [List.length_append, List.length_singleton]
    case full => exact h.full
    case few =>
      rw [List.length_append, List.length_singleton]
      omega
    case tiles => exact htiles
    case fits => exact hall
    case place => exact hplace
    case decoded => exact hdecoded


theorem length_tokenBytes (token : Nat) : (tokenBytes token).length = 2 := rfl

theorem length_body {item : Item UInt8} (h : Fits item) : (body item).length = unitCoded item.length := by
  cases item with
  | literal value => rfl
  | copy offset length =>
    obtain ⟨-, -, hlong, -⟩ := h
    exact (if_pos hlong).symm

structure Coding.Within (coding : Coding) : Prop where
  held : coding.flagCount = 0 → coding.group = []
  coded : coding.finished.length ≤ chunkCoded
  decoded : coding.decoded ≤ chunkOutput
  small : coding.finished.length ≤ 2 * coding.decoded
  some : 0 < coding.decoded → 2 ≤ coding.finished.length
  long : 2 ≤ coding.decoded → 3 ≤ coding.finished.length

theorem Coding.Within.begun (start : Nat) : (Coding.start start).Within where
  held := fun _ => rfl
  coded := Nat.zero_le _
  decoded := Nat.zero_le _
  small := Nat.zero_le _
  some := fun h => absurd h (Nat.lt_irrefl 0)
  long := fun h => absurd h (Nat.not_succ_le_zero 1)

def Coding.written (coding : Coding) : Nat := coding.coded.length + coding.group.length

theorem Coding.Within.written_le {coding : Coding} (h : coding.Within) :
    coding.written ≤ coding.finished.length ∧ coding.finished.length ≤ coding.written + 1 := by
  unfold Coding.finished Coding.written
  split
  · rw [List.length_append, List.length_cons]
    omega
  · rename_i hnone
    rw [h.held (by omega), List.length_nil]
    omega

theorem Coding.length_finished_add (coding : Coding) {item : Item UInt8} (h : Fits item) :
    (coding.add item).finished.length = coding.written + unitCoded item.length + 1 := by
  have hbody := length_body h
  unfold Coding.add Coding.push Coding.written
  dsimp only
  split
  · simp only [Coding.finished, Nat.lt_irrefl, if_false, List.length_append, List.length_cons]
    omega
  · simp only [Coding.finished, Nat.zero_lt_succ, if_true, List.length_append, List.length_cons]
    omega

theorem unitCoded_le (length : Nat) (h : 0 < length) :
    1 ≤ unitCoded length ∧ unitCoded length + 1 ≤ 2 * length := by
  unfold unitCoded lengthBias
  split <;> omega

theorem Coding.decoded_add (coding : Coding) (item : Item UInt8) :
    (coding.add item).decoded = coding.decoded + item.length := by
  unfold Coding.add Coding.push
  dsimp only
  split <;> rfl

theorem Coding.place_add (coding : Coding) (item : Item UInt8) :
    (coding.add item).place = coding.place + item.length := by
  unfold Coding.add Coding.push
  dsimp only
  split <;> rfl

theorem Coding.flagCount_add {coding : Coding} {item : Item UInt8} (hfew : coding.flagCount < 8)
    (hfits : Fits item) :
    (coding.add item).flagCount = (if coding.flagCount = 7 then 0 else coding.flagCount + 1) ∧
      (coding.add item).written = coding.written + unitCoded item.length +
        if coding.flagCount = 7 then 1 else 0 := by
  have hbody := length_body hfits
  unfold Coding.add Coding.push Coding.written
  dsimp only
  by_cases hlast : coding.flagCount = 7
  · rw [if_pos (by omega), if_pos hlast, if_pos hlast]
    refine ⟨rfl, ?_⟩
    simp only [List.length_append, List.length_cons, List.length_nil, hbody]
    omega
  · rw [if_neg (by omega), if_neg hlast, if_neg hlast]
    refine ⟨rfl, ?_⟩
    simp only [List.length_append, hbody]
    omega

theorem Coding.Within.add {coding : Coding} {item : Item UInt8} (h : coding.Within)
    (hfits : Fits item) (hcoded : coding.written + unitCoded item.length + 1 ≤ chunkCoded)
    (hdecoded : coding.decoded + item.length ≤ chunkOutput) : (coding.add item).Within := by
  have hlength := coding.length_finished_add hfits
  have hnow := coding.decoded_add item
  have hpos := hfits.length_pos
  obtain ⟨hunit, htwice⟩ := unitCoded_le item.length hpos
  have hwritten := h.written_le
  have hsmall := h.small
  have hsome := h.some
  constructor
  case held =>
    unfold Coding.add Coding.push
    dsimp only
    split
    · exact fun _ => rfl
    · exact fun hzero => absurd hzero (Nat.succ_ne_zero _)
  case coded => omega
  case decoded => omega
  case small => omega
  case some => omega
  case long =>
    intro hlong
    rcases Nat.eq_zero_or_pos coding.decoded with hzero | hmore
    · -- The first item: two bytes of the data in one item are a copy.
      have hcopy : unitCoded item.length = 2 := by
        cases item with
        | literal value => 
          have hone : (Item.literal value).length = 1 := rfl
          omega
        | copy offset length => exact if_pos hfits.2.2.1
      omega
    · have hmost := hsome hmore
      omega

theorem itemAt_copy (byte : UInt8) {found : Nat × Nat} (h : lengthBias ≤ found.1) :
    itemAt byte found = .copy found.2 found.1 := if_pos h

theorem itemAt_literal (byte : UInt8) {found : Nat × Nat} (h : ¬ lengthBias ≤ found.1) :
    itemAt byte found = .literal byte := if_neg h

theorem Found.resolve {data : Bytes} {place start : Nat} {found : Nat × Nat}
    (h : found = (0, 0) ∨ Found data place start found) (hlong : lengthBias ≤ found.1) :
    Found data place start found := by
  refine h.resolve_left ?_
  rintro rfl
  exact absurd hlong (by decide)

theorem itemAt_spec {data : Bytes} {place start : Nat} {found : Nat × Nat} {byte : UInt8}
    (hstart : start ≤ place) (hbyte : data[place]? = some byte)
    (hfound : found = (0, 0) ∨ Found data place start found) :
    (itemAt byte found).Matches data place ∧ Fits (itemAt byte found) ∧
      (itemAt byte found).length = taken found.1 ∧
        unitCoded (itemAt byte found).length = unitCoded found.1 ∧
          (itemAt byte found).length ≤ max found.1 1 := by
  by_cases hlong : lengthBias ≤ found.1
  · have hmatch := Found.resolve hfound hlong
    have hwithin := hmatch.within
    rw [itemAt_copy byte hlong]
    refine ⟨⟨hmatch.back, by omega, hmatch.room, hmatch.same⟩,
      ⟨hmatch.back, hmatch.reach, hlong, hmatch.length⟩, ?_, rfl, Nat.le_max_left _ _⟩
    exact (if_pos hlong).symm
  · rw [itemAt_literal byte hlong]
    refine ⟨hbyte, trivial, ?_, ?_, Nat.le_max_right _ _⟩
    · exact (if_neg hlong).symm
    · exact (if_neg hlong).symm

theorem codeItems_stop {data : Bytes} {start rounds : Nat} {coding : Coding}
    (hdecoded : coding.decoded = coding.place - start)
    (hrounds : chunkOutput ≤ rounds + coding.decoded)
    (hroom : ¬ Room data start coding.written coding.place) :
    codeItems data start rounds coding = pure coding := by
  unfold codeItems
  split
  · rename_i hmore
    cases rounds with
    | zero => omega
    | succ rounds =>
      dsimp only
      rw [if_pos]
      rw [Room, not_and, not_and_or] at hroom
      rcases hroom hmore.1 with hcoded | hout
      · left
        exact Nat.lt_of_not_le hcoded
      · right
        rw [hdecoded]
        exact Nat.lt_of_not_le hout
  · rfl

theorem Found.token {data : Bytes} {place start : Nat} {found : Nat × Nat}
    (h : Found data place start found) :
    ¬ 0xffff < (found.2 - offsetBias) * 16 + (found.1 - lengthBias) := by
  have hreach := h.reach
  have hlength := h.length
  unfold maxOffset at hreach
  unfold maxMatch at hlength
  unfold offsetBias lengthBias
  omega

theorem codeItems_step {data : Bytes} {start : Nat} (rounds : Nat) {coding : Coding} {byte : UInt8}
    (hbyte : data[coding.place]? = some byte) (hplace : coding.place < data.length)
    (hloop : coding.decoded < chunkOutput)
    (hcoded : coding.written + unitCoded (matched data coding.place start) + 1 ≤ chunkCoded)
    (hout : coding.decoded + max (matched data coding.place start) 1 ≤ chunkOutput) :
    codeItems data start (rounds + 1) coding =
      codeItems data start rounds
        (coding.add (itemAt byte (longestMatch data coding.place start))) := by
  have hspec := longestMatch_spec data coding.place start
  have hbudget : ¬ (chunkCoded < coding.coded.length + coding.group.length +
      (if lengthBias ≤ (longestMatch data coding.place start).1 then 2 else 1) + 1 ∨
        chunkOutput < coding.decoded + max (longestMatch data coding.place start).1 1) :=
    not_or.mpr ⟨Nat.not_lt.mpr hcoded, Nat.not_lt.mpr hout⟩
  rw [codeItems, if_pos ⟨hplace, hloop⟩]
  dsimp only
  rw [if_neg hbudget]
  by_cases hlong : lengthBias ≤ (longestMatch data coding.place start).1
  · rw [if_pos hlong, if_neg (Found.resolve hspec hlong).token, itemAt_copy byte hlong]
    rfl
  · rw [if_neg hlong, hbyte, itemAt_literal byte hlong]
    rfl

/-- How a chunk's items end: both budgets kept, and no room left for another item. -/
structure Coding.Cut (coding : Coding) (data : Bytes) (start : Nat) : Prop where
  within : coding.Within
  codes : ∃ groups pending, coding.Codes data start groups pending
  full : ¬ Room data start coding.written coding.place

theorem codeItems_spec (data : Bytes) (start : Nat) (rounds : Nat) : ∀ coding : Coding,
    coding.Within → (∃ groups pending, coding.Codes data start groups pending) →
      chunkOutput ≤ rounds + coding.decoded →
        ∃ final, codeItems data start rounds coding = pure final ∧ final.Cut data start ∧
          final.place =
            cutFrom data start rounds coding.flagCount coding.written coding.place := by
  induction rounds with
  | zero =>
    intro coding hwithin hcodes hrounds
    obtain ⟨groups, pending, hcode⟩ := hcodes
    have hfull : ¬ Room data start coding.written coding.place := by
      intro hroom
      have hout := hroom.2.2
      rw [← hcode.decoded] at hout
      omega
    exact ⟨coding, codeItems_stop hcode.decoded hrounds hfull,
      ⟨hwithin, ⟨groups, pending, hcode⟩, hfull⟩, rfl⟩
  | succ rounds ih =>
    intro coding hwithin hcodes hrounds
    obtain ⟨groups, pending, hcode⟩ := hcodes
    by_cases hroom : Room data start coding.written coding.place
    · have ⟨hplace, hcoded, hout⟩ := hroom
      have hstart : start ≤ coding.place := by
        rw [hcode.place]
        exact Nat.le_add_right _ _
      rw [← hcode.decoded] at hout
      have hbyte := List.getElem?_eq_getElem hplace
      obtain ⟨hmatches, hfits, htaken, hunit, hmost⟩ := itemAt_spec hstart hbyte
        (longestMatch_spec data coding.place start)
      have hstep := codeItems_step rounds hbyte hplace (by omega) hcoded hout
      generalize itemAt data[coding.place] (longestMatch data coding.place start) = item at *
      change item.length = taken (matched data coding.place start) at htaken
      change unitCoded item.length = unitCoded (matched data coding.place start) at hunit
      change item.length ≤ max (matched data coding.place start) 1 at hmost
      have hpos := hfits.length_pos
      have hnow := coding.decoded_add item
      obtain ⟨hheld, hwritten⟩ := Coding.flagCount_add (hcode.flagCount ▸ hcode.few) hfits
      obtain ⟨final, hfinal, hcut, hend⟩ := ih (coding.add item)
        (hwithin.add hfits (by omega) (by omega)) (hcode.add hmatches hfits) (by omega)
      refine ⟨final, hstep.trans hfinal, hcut, ?_⟩
      rw [hend, cutFrom, if_pos hroom, hheld, hwritten, coding.place_add, hunit, htaken]
    · refine ⟨coding, codeItems_stop hcode.decoded hrounds hroom,
        ⟨hwithin, ⟨groups, pending, hcode⟩, hroom⟩, ?_⟩
      rw [cutFrom, if_neg hroom]

end LogicalWorks.Vba
