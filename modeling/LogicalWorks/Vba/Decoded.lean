import LogicalWorks.Vba.Coded

/-! What the decompressor makes of coded items, groups and chunks: the prefix of the data they were
coded from. -/
namespace LogicalWorks.Vba

open Window

theorem copyToken_eq {offset : Nat} (length : Nat) : ∀ {out final : Bytes},
    copyBack offset length out = some final → copyToken offset length out = .ok final := by
  induction length with
  | zero =>
    intro out final h
    cases h
    rfl
  | succ length ih =>
    intro out final h
    obtain ⟨byte, hbyte, hrest⟩ := Option.bind_eq_some_iff.mp h
    rw [copyToken, hbyte]
    exact ih hrest

theorem toNat_tokenBytes (token : Nat) (h : token ≤ 0xffff) :
    (UInt8.ofNat (token % 256)).toNat + (UInt8.ofNat (token / 256)).toNat * 256 = token := by
  rw [UInt8.toNat_ofNat', UInt8.toNat_ofNat']
  omega

theorem checkDecompressed_ok {limits : Limits} {seen : Nat} (h : seen ≤ limits.maxDecompressedBytes) :
    limits.checkDecompressed seen = .ok () := if_neg (Nat.not_lt.mpr h)

theorem decompressChunk_literal {limits : Limits} {flags position cursor place : Nat}
    {data more : Bytes} {value : UInt8} (hposition : position < 8)
    (hbit : flags.testBit position = false) (hmatches : (Item.literal value).Matches data place)
    (hlimit : place + 1 ≤ limits.maxDecompressedBytes) :
    decompressChunk limits flags position cursor (value :: more) (data.take place) =
      decompressChunk limits flags (position + 1) (cursor + 1) more (data.take (place + 1)) := by
  have hle := Item.Matches.le hmatches
  have hlength : (data.take place).length = place := List.length_take_of_le (by omega)
  conv_lhs => unfold decompressChunk
  rw [if_neg (by omega), hbit, hlength, checkDecompressed_ok hlimit, take_succ hmatches]
  rfl

theorem decompressChunk_copy {limits : Limits} {flags position cursor place offset length : Nat}
    {data more : Bytes} (hposition : position < 8) (hbit : flags.testBit position = true)
    (hmatches : (Item.copy offset length).Matches data place) (hfits : Fits (.copy offset length))
    (hlimit : place + length ≤ limits.maxDecompressedBytes) :
    decompressChunk limits flags position cursor (body (.copy offset length) ++ more)
        (data.take place) =
      decompressChunk limits flags (position + 1) (cursor + 2) more
        (data.take (place + length)) := by
  obtain ⟨hpos, hback, hroom, hsame⟩ := hmatches
  obtain ⟨-, hreach, hlong, hmost⟩ := hfits
  have hlength : (data.take place).length = place := List.length_take_of_le (by omega)
  unfold maxOffset at hreach
  unfold lengthBias at hlong
  unfold maxMatch at hmost
  have htoken := toNat_tokenBytes ((offset - offsetBias) * 16 + (length - lengthBias))
    (by unfold offsetBias lengthBias; omega)
  have hspan : ((offset - offsetBias) * 16 + (length - lengthBias)) % 16 + lengthBias = length := by
    unfold lengthBias
    omega
  have hdistance :
      ((offset - offsetBias) * 16 + (length - lengthBias)) / 16 + offsetBias = offset := by
    unfold offsetBias lengthBias
    omega
  have hbad : ¬ (offset = 0 ∨ place < offset ∨ maxOffset < offset) := by
    unfold maxOffset
    omega
  have hcopy := copyToken_eq length (copyBack_take length place hpos hback hroom hsame)
  rw [body, tokenBytes, List.cons_append, List.cons_append, List.nil_append, decompressChunk,
    if_neg (by omega), hbit]
  dsimp only [Bool.not_true, Bool.false_eq_true]
  rw [if_neg (by decide), htoken, hspan, hdistance, hlength, if_neg hbad,
    checkDecompressed_ok hlimit, hcopy]
  rfl

theorem decompressChunk_items {limits : Limits} {data : Bytes} {group : List (Item UInt8)}
    (hgroup : group.length ≤ 8) (rest : List (Item UInt8)) : ∀ (finished : List (Item UInt8))
    (cursor : Nat) {place : Nat} (more : Bytes), group = finished ++ rest → Tiles data place rest →
      (∀ item ∈ rest, Fits item) → place + total rest ≤ limits.maxDecompressedBytes →
        ∃ cursor', decompressChunk limits (flagsOf group) finished.length cursor
            (rest.flatMap body ++ more) (data.take place) =
          decompressChunk limits (flagsOf group) group.length cursor' more
            (data.take (place + total rest)) := by
  induction rest with
  | nil =>
    intro finished cursor place more hsplit _ _ _
    rw [List.append_nil] at hsplit
    exact ⟨cursor, by rw [hsplit]; rfl⟩
  | cons item rest ih =>
    intro finished cursor place more hsplit htiles hfits hlimit
    obtain ⟨hmatches, htiles⟩ := htiles
    rw [total_cons] at hlimit
    have hlengths := congrArg List.length hsplit
    rw [List.length_append, List.length_cons] at hlengths
    have hbit : (flagsOf group).testBit finished.length = isCopy item := by
      rw [testBit_flagsOf, hsplit, List.getElem?_append_right (Nat.le_refl _), Nat.sub_self]
      rfl
    have hnext : group = (finished ++ [item]) ++ rest := by
      rw [hsplit, List.append_assoc, List.singleton_append]
    have hrest := fun cursor => ih _ cursor more hnext htiles
      (fun other hin => hfits other (List.mem_cons_of_mem _ hin)) (by omega)
    rw [List.length_append, List.length_singleton] at hrest
    rw [total_cons, ← Nat.add_assoc, List.flatMap_cons, List.append_assoc]
    have hhere := hfits item List.mem_cons_self
    cases item with
    | literal value =>
      obtain ⟨cursor', hcursor⟩ := hrest (cursor + 1)
      refine ⟨cursor', Eq.trans ?_ hcursor⟩
      have hone : (Item.literal value).length = 1 := rfl
      exact decompressChunk_literal (by omega) hbit hmatches (by omega)
    | copy offset length =>
      obtain ⟨cursor', hcursor⟩ := hrest (cursor + 2)
      refine ⟨cursor', Eq.trans ?_ hcursor⟩
      have hspan : (Item.copy offset length : Item UInt8).length = length := rfl
      exact decompressChunk_copy (by omega) hbit hmatches hhere (by omega)

theorem decompressChunk_group {limits : Limits} {data : Bytes} {group : List (Item UInt8)}
    {place : Nat} (flags cursor : Nat) (hgroup : group.length ≤ 8) (more : Bytes)
    (htiles : Tiles data place group) (hfits : ∀ item ∈ group, Fits item)
    (hlimit : place + total group ≤ limits.maxDecompressedBytes) :
    ∃ cursor', decompressChunk limits flags 8 cursor (spellGroup group ++ more)
        (data.take place) =
      decompressChunk limits (flagsOf group) group.length cursor' more
        (data.take (place + total group)) := by
  have hflags : (UInt8.ofNat (flagsOf group)).toNat = flagsOf group := by
    rw [UInt8.toNat_ofNat']
    refine Nat.mod_eq_of_lt (Nat.lt_of_lt_of_le (flagsOf_lt group) ?_)
    exact Nat.pow_le_pow_right (by decide) hgroup
  obtain ⟨cursor', hcursor⟩ := decompressChunk_items hgroup group [] (cursor + 1) more rfl htiles hfits hlimit
  refine ⟨cursor', Eq.trans ?_ hcursor⟩
  rw [spellGroup, List.cons_append]
  conv_lhs => unfold decompressChunk
  rw [if_pos (Nat.le_refl 8), hflags]
  rfl

theorem decompressChunk_groups {limits : Limits} {data : Bytes} {pending : List (Item UInt8)}
    (hfew : pending.length < 8) (groups : List (List (Item UInt8))) :
    ∀ {flags cursor place : Nat}, (∀ group ∈ groups, group.length = 8) →
      Tiles data place (groups.flatten ++ pending) →
        (∀ item ∈ groups.flatten ++ pending, Fits item) →
          place + total (groups.flatten ++ pending) ≤ limits.maxDecompressedBytes →
            decompressChunk limits flags 8 cursor
                (groups.flatMap spellGroup ++ if pending = [] then [] else spellGroup pending)
                (data.take place) =
              .ok (data.take (place + total (groups.flatten ++ pending))) := by
  induction groups with
  | nil =>
    intro flags cursor place _ htiles hfits hlimit
    rw [List.flatten_nil, List.nil_append] at *
    rw [List.flatMap_nil, List.nil_append]
    by_cases hnone : pending = []
    · rw [if_pos hnone, hnone, decompressChunk]
      rfl
    · rw [if_neg hnone]
      obtain ⟨cursor', hcursor⟩ := decompressChunk_group flags cursor
        (Nat.le_of_lt hfew) [] htiles hfits hlimit
      rw [List.append_nil] at hcursor
      rw [hcursor, decompressChunk]
  | cons group groups ih =>
    intro flags cursor place hfull htiles hfits hlimit
    rw [List.flatten_cons, List.append_assoc] at *
    rw [tiles_append] at htiles
    rw [total_append] at hlimit ⊢
    have height := hfull group List.mem_cons_self
    obtain ⟨cursor', hcursor⟩ := @decompressChunk_group limits data group place flags cursor
      (Nat.le_of_eq height)
      (groups.flatMap spellGroup ++ if pending = [] then [] else spellGroup pending) htiles.1
      (fun item hin => hfits item (List.mem_append_left _ hin)) (by omega)
    rw [List.flatMap_cons, List.append_assoc, hcursor, height, ← Nat.add_assoc]
    exact ih (fun other hin => hfull other (List.mem_cons_of_mem _ hin)) htiles.2
      (fun item hin => hfits item (List.mem_append_right _ hin)) (by omega)

theorem Coding.Codes.finished {coding : Coding} {data : Bytes} {start : Nat}
    {groups : List (List (Item UInt8))} {pending : List (Item UInt8)}
    (h : coding.Codes data start groups pending) :
    coding.finished =
      groups.flatMap spellGroup ++ if pending = [] then [] else spellGroup pending := by
  rw [Coding.finished, h.flagCount, h.coded, h.flags, h.group]
  by_cases hnone : pending = []
  · rw [if_neg (by rw [hnone]; exact Nat.lt_irrefl 0), if_pos hnone, List.append_nil]
  · rw [if_pos (List.length_pos_iff.mpr hnone), if_neg hnone, spellGroup]

theorem Coding.Cut.decompressed {coding : Coding} {data : Bytes} {start cursor : Nat}
    {limits : Limits} (h : coding.Cut data start)
    (hlimit : coding.place ≤ limits.maxDecompressedBytes) :
    decompressChunk limits 0 8 cursor coding.finished (data.take start) =
      .ok (data.take coding.place) := by
  obtain ⟨groups, pending, hcodes⟩ := h.codes
  rw [hcodes.place] at hlimit
  rw [hcodes.finished, hcodes.place]
  exact decompressChunk_groups hcodes.few groups hcodes.full hcodes.tiles hcodes.fits hlimit

end LogicalWorks.Vba
