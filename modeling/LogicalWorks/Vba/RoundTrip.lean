import LogicalWorks.Vba.Decoded

/-! Containers: the chunks a compressed module is made of, and which of them read back. -/
namespace LogicalWorks.Vba

open Window

namespace Coding

variable {coding : Coding} {data : Bytes} {start : Nat}

theorem Cut.place_le (h : coding.Cut data start) (hstart : start ≤ data.length) :
    coding.place ≤ data.length := by
  obtain ⟨groups, pending, hcodes⟩ := h.codes
  rw [hcodes.place]
  exact hcodes.tiles.le hstart

theorem Cut.decoded (h : coding.Cut data start) :
    start ≤ coding.place ∧ coding.decoded = coding.place - start := by
  obtain ⟨groups, pending, hcodes⟩ := h.codes
  refine ⟨?_, hcodes.decoded⟩
  rw [hcodes.place]
  exact Nat.le_add_right _ _

theorem Cut.length_le (h : coding.Cut data start) (hfew : coding.decoded ≤ 1) :
    data.length ≤ coding.place := by
  by_contra hmore
  have hwritten := h.within.written_le.1
  have hsmall := h.within.small
  have hmatched := matched_le data coding.place start
  have hunit := unitCoded_le_two (matched data coding.place start)
  refine h.full ⟨Nat.lt_of_not_le hmore, ?_, ?_⟩
  · unfold chunkCoded
    omega
  · rw [← h.decoded.2]
    unfold chunkOutput
    unfold maxMatch at hmatched
    omega

theorem Cut.progress (h : coding.Cut data start) (hstart : start < data.length) :
    start < coding.place := by
  obtain ⟨hle, hdecoded⟩ := h.decoded
  by_contra hstuck
  have hend := h.length_le (by omega)
  omega

def chunk (coding : Coding) : Bytes :=
  tokenBytes (compressedFlag + (coding.finished.length - sizeBias)) ++ coding.finished

theorem length_chunk (coding : Coding) : coding.chunk.length = 2 + coding.finished.length := by
  rw [chunk, List.length_append, length_tokenBytes]

end Coding

theorem headerSize_eq {coded : Nat} (h : coded ≤ chunkCoded) :
    headerSize coded = .ok (coded - sizeBias) := by
  unfold chunkCoded at h
  unfold headerSize sizeBias sizeMask
  rw [if_neg (by omega), Nat.mod_eq_of_lt (by omega)]

def overBytes (limits : Limits) (seen : Nat) : VbaError :=
  .limit (.tooManyBytes limits.maxBytes seen)

theorem checkBytes_eq (limits : Limits) (seen : Nat) :
    (limits.checkBytes seen = .ok () ∧ seen ≤ limits.maxBytes) ∨
      (limits.checkBytes seen = .error (overBytes limits seen) ∧ limits.maxBytes < seen) := by
  unfold Limits.checkBytes
  split
  · rename_i hover
    exact .inr ⟨rfl, hover⟩
  · rename_i hwithin
    exact .inl ⟨rfl, Nat.le_of_not_lt hwithin⟩

theorem codeChunk_spec {data : Bytes} {start : Nat} (out : Bytes) (limits : Limits)
    (hstart : start < data.length) :
    ∃ coding : Coding, coding.Cut data start ∧ coding.place = cut data start ∧
      (codeChunk data start out limits = pure (coding.place - start, out ++ coding.chunk) ∨
        (limits.maxBytes < (out ++ coding.chunk).length ∧
          codeChunk data start out limits =
            throw (overBytes limits (out ++ coding.chunk).length))) := by
  obtain ⟨coding, hcoding, hcut, hplace⟩ := codeItems_spec data start chunkOutput (.start start)
    (.begun start) ⟨[], [], .begun data start⟩ (Nat.le_add_right _ _)
  have hprogress := hcut.progress hstart
  obtain ⟨-, hdecoded⟩ := hcut.decoded
  have hsome := hcut.within.some (by omega)
  have hnonempty : ¬ (coding.finished = [] ∨ coding.place = start) := by
    rintro (hnone | hsame)
    · rw [hnone] at hsome
      exact absurd hsome (by decide)
    · omega
  refine ⟨coding, hcut, hplace, ?_⟩
  have hlength : (out ++ coding.chunk).length =
      (out ++ tokenBytes (compressedFlag + (coding.finished.length - sizeBias))).length +
        coding.finished.length := by
    rw [Coding.chunk, ← List.append_assoc, List.length_append]
  unfold codeChunk
  rw [hcoding, pure_bind]
  dsimp only
  rw [if_neg hnonempty, headerSize_eq hcut.within.coded, Looping.ok_bind, ← hlength]
  rcases checkBytes_eq limits (out ++ coding.chunk).length with ⟨hcheck, -⟩ | ⟨hcheck, hover⟩
  · left
    rw [hcheck, Looping.ok_bind, Coding.chunk, ← List.append_assoc]
  · right
    rw [hcheck, Looping.error_bind]
    exact ⟨hover, rfl⟩

inductive Chunked (data : Bytes) : Nat → List Coding → Prop
  | done {start : Nat} (hend : data.length ≤ start) : Chunked data start []
  | chunk {start : Nat} {coding : Coding} {rest : List Coding} (hstart : start < data.length)
      (hcut : coding.Cut data start) (hplace : coding.place = cut data start)
      (hrest : Chunked data coding.place rest) : Chunked data start (coding :: rest)

theorem codeChunks_spec (data : Bytes) (limits : Limits) (rounds : Nat) : ∀ {start : Nat}
    (out : Bytes), start ≤ data.length → data.length ≤ rounds + start →
      ∃ codings, Chunked data start codings ∧
        (codeChunks data limits rounds start out = pure (out ++ codings.flatMap Coding.chunk) ∨
          ∃ seen, limits.maxBytes < seen ∧ seen ≤ out.length + 4 * (data.length - start) ∧
            codeChunks data limits rounds start out = throw (overBytes limits seen)) := by
  induction rounds with
  | zero =>
    intro start out hle hrounds
    refine ⟨[], .done (by omega), .inl ?_⟩
    unfold codeChunks
    rw [if_neg (by omega), List.flatMap_nil, List.append_nil]
  | succ rounds ih =>
    intro start out hle hrounds
    by_cases hstart : start < data.length
    · obtain ⟨coding, hcut, hplace, hchunk⟩ := codeChunk_spec out limits hstart
      have hprogress := hcut.progress hstart
      obtain ⟨-, hdecoded⟩ := hcut.decoded
      have hnext := hcut.place_le hle
      have hsmall := hcut.within.small
      have hlength := coding.length_chunk
      obtain ⟨codings, hchunked, hcodings⟩ := ih (out ++ coding.chunk) hnext (by omega)
      refine ⟨coding :: codings, .chunk hstart hcut hplace hchunked, ?_⟩
      have hcursor : start + (coding.place - start) = coding.place := by omega
      unfold codeChunks
      rw [if_pos hstart]
      rw [List.length_append] at hchunk hcodings
      rcases hchunk with hchunk | ⟨hover, hchunk⟩
      · dsimp only
        rw [hchunk, pure_bind]
        dsimp only
        rw [hcursor]
        rcases hcodings with hcodings | ⟨seen, hseen, hmost, hcodings⟩
        · left
          rw [hcodings, List.flatMap_cons, List.append_assoc]
        · exact .inr ⟨seen, hseen, by omega, hcodings⟩
      · right
        refine ⟨_, hover, by omega, ?_⟩
        dsimp only
        rw [hchunk, Looping.throw_bind]
    · refine ⟨[], .done (by omega), .inl ?_⟩
      unfold codeChunks
      rw [if_neg hstart, List.flatMap_nil, List.append_nil]

end LogicalWorks.Vba

/-! What compresses reads back, unless a chunk holds nothing but the last byte of the data: the two
bytes it is coded as have no size in a header. -/
namespace LogicalWorks.Vba

theorem chunk_eq (coding : Coding) : coding.chunk =
    UInt8.ofNat ((compressedFlag + (coding.finished.length - sizeBias)) % 256) ::
      UInt8.ofNat ((compressedFlag + (coding.finished.length - sizeBias)) / 256) ::
        coding.finished := rfl

theorem header_fields {coded : Nat} (h : coded ≤ chunkCoded) :
    (UInt8.ofNat ((compressedFlag + (coded - sizeBias)) % 256)).toNat +
          (UInt8.ofNat ((compressedFlag + (coded - sizeBias)) / 256)).toNat * 256 =
        compressedFlag + (coded - sizeBias) ∧
      (compressedFlag + (coded - sizeBias)) / compressedFlag ≠ 0 ∧
        (compressedFlag + (coded - sizeBias)) % (sizeMask + 1) + sizeBias = max coded sizeBias := by
  unfold chunkCoded at h
  refine ⟨toNat_tokenBytes _ ?_, ?_, ?_⟩
  all_goals unfold compressedFlag sizeBias
  · omega
  · omega
  · unfold sizeMask
    omega

theorem readChunk_chunk {coding : Coding} {data : Bytes} {start : Nat} {limits : Limits}
    (h : coding.Cut data start) (hlong : sizeBias ≤ coding.finished.length)
    (hlimit : coding.place ≤ limits.maxDecompressedBytes) (cursor : Nat) (more : Bytes) :
    readChunk limits cursor (coding.chunk ++ more) (data.take start) =
      .ok (coding.chunk.length, data.take coding.place) := by
  obtain ⟨hheader, hflag, hsize⟩ := header_fields h.within.coded
  rw [Nat.max_eq_left hlong] at hsize
  have hroom : ¬ (coding.finished ++ more).length < coding.finished.length := by
    rw [List.length_append]
    omega
  rw [chunk_eq, List.cons_append, List.cons_append, readChunk]
  dsimp only
  rw [hheader, if_neg hflag, hsize, if_neg hroom, List.take_left, h.decompressed hlimit]
  change Except.ok (2 + coding.finished.length, data.take coding.place) = _
  rw [List.length_cons, List.length_cons, Nat.add_comm 2]

theorem readChunk_short {coding : Coding} (hshort : coding.finished.length < sizeBias)
    (limits : Limits) (cursor : Nat) (out : Bytes) :
    readChunk limits cursor coding.chunk out =
      .error (.truncated (cursor + 2) (cursor + 2 + sizeBias)) := by
  have hcoded : coding.finished.length ≤ chunkCoded :=
    Nat.le_trans (Nat.le_of_lt hshort) (by decide)
  obtain ⟨hheader, hflag, hsize⟩ := header_fields hcoded
  rw [Nat.max_eq_right (Nat.le_of_lt hshort)] at hsize
  rw [chunk_eq, readChunk]
  dsimp only
  rw [hheader, if_neg hflag, hsize, if_pos hshort]
  rfl

theorem readChunks_cons (limits : Limits) (rounds cursor : Nat) (coding : Coding) (more out : Bytes) :
    readChunks limits (rounds + 1) cursor (coding.chunk ++ more) out =
      (do
        let read ← readChunk limits cursor (coding.chunk ++ more) out
        readChunks limits rounds (cursor + read.1) ((coding.chunk ++ more).drop read.1) read.2) := by
  rw [chunk_eq, List.cons_append, readChunks]
  intro hnone
  cases hnone

theorem Coding.Cut.short_iff {coding : Coding} {data : Bytes} {start : Nat}
    (h : coding.Cut data start) (hstart : start < data.length) :
    coding.finished.length < sizeBias ↔ start + 1 = data.length := by
  obtain ⟨hle, hdecoded⟩ := h.decoded
  have hprogress := h.progress hstart
  have hend := h.place_le (Nat.le_of_lt hstart)
  have hlong := h.within.long
  have hsmall := h.within.small
  have hlast := h.length_le
  unfold sizeBias
  constructor
  · intro hshort
    have hfew : coding.decoded ≤ 1 := by omega
    have hall := hlast hfew
    omega
  · intro hone
    omega

theorem Chunked.read {data : Bytes} {limits : Limits} {start : Nat} {codings : List Coding}
    (h : Chunked data start codings) (hlimit : data.length ≤ limits.maxDecompressedBytes) :
    ∀ (count rounds cursor : Nat), start ≤ data.length → data.length ≤ count + start →
      (codings.flatMap Coding.chunk).length ≤ rounds →
        ((∀ place ∈ chunkStartsFrom data count start, place + 1 ≠ data.length) ∧
            readChunks limits rounds cursor (codings.flatMap Coding.chunk) (data.take start) =
              pure data) ∨
          ((∃ place ∈ chunkStartsFrom data count start, place + 1 = data.length) ∧
            ∃ cause, readChunks limits rounds cursor (codings.flatMap Coding.chunk)
              (data.take start) = throw cause) := by
  induction h with
  | @done start hend =>
    intro count rounds cursor hle hcount hrounds
    left
    refine ⟨?_, ?_⟩
    · intro place hplace
      cases count with
      | zero => exact absurd hplace List.not_mem_nil
      | succ count =>
        rw [chunkStartsFrom, if_neg (Nat.not_lt.mpr hend)] at hplace
        exact absurd hplace List.not_mem_nil
    · rw [List.flatMap_nil, readChunks, List.take_of_length_le hend]
  | @chunk start coding rest hstart hcut hplace hrest ih =>
    intro count rounds cursor hle hcount hrounds
    have hprogress := hcut.progress hstart
    have hend := hcut.place_le hle
    have hshort := hcut.short_iff hstart
    rw [List.flatMap_cons, List.length_append, coding.length_chunk] at hrounds
    obtain ⟨count, rfl⟩ : ∃ fewer, count = fewer + 1 := ⟨count - 1, by omega⟩
    obtain ⟨rounds, rfl⟩ : ∃ fewer, rounds = fewer + 1 := ⟨rounds - 1, by omega⟩
    rw [chunkStartsFrom, if_pos hstart, List.flatMap_cons, readChunks_cons, ← hplace]
    by_cases hlast : start + 1 = data.length
    · -- The chunk is the last one, and the container ends inside it.
      right
      refine ⟨⟨start, List.mem_cons_self, hlast⟩, .truncated (cursor + 2) (cursor + 2 + sizeBias), ?_⟩
      have hnone : rest = [] := by
        cases hrest with
        | done => rfl
        | chunk hmore => omega
      rw [hnone, List.flatMap_nil, List.append_nil, readChunk_short (hshort.mpr hlast)]
      rfl
    · have hlong : sizeBias ≤ coding.finished.length :=
        Nat.le_of_not_lt fun hless => hlast (hshort.mp hless)
      rw [readChunk_chunk hcut hlong (Nat.le_trans hend hlimit), Looping.ok_bind]
      dsimp only
      rw [List.drop_left]
      rcases ih count rounds (cursor + coding.chunk.length) hend (by omega) (by omega) with ⟨hgood, hread⟩ | ⟨⟨place, hin, hbad⟩, cause, hread⟩
      · left
        refine ⟨?_, hread⟩
        intro place hin
        rcases List.mem_cons.mp hin with rfl | hin
        · exact hlast
        · exact hgood place hin
      · exact .inr ⟨⟨place, List.mem_cons_of_mem _ hin, hbad⟩, cause, hread⟩

theorem Chunked.bounds {data : Bytes} {start : Nat} {codings : List Coding}
    (h : Chunked data start codings) : ∀ coding ∈ codings,
      coding.finished.length ≤ sizeMask + sizeBias ∧ coding.decoded ≤ chunkOutput := by
  induction h with
  | done => exact fun _ hin => absurd hin List.not_mem_nil
  | chunk hstart hcut hplace hrest ih =>
    intro other hin
    rcases List.mem_cons.mp hin with rfl | hin
    · exact ⟨hcut.within.coded, hcut.within.decoded⟩
    · exact ih other hin

theorem Chunked.sizes {data : Bytes} {start : Nat} {codings : List Coding}
    (h : Chunked data start codings) : start ≤ data.length →
      (codings.map Coding.decoded).sum = data.length - start ∧
        (codings.flatMap Coding.chunk).length ≤ 4 * (data.length - start) := by
  induction h with
  | @done start hend =>
    intro hle
    refine ⟨?_, Nat.zero_le _⟩
    rw [List.map_nil, List.sum_nil]
    omega
  | @chunk start coding rest hstart hcut hplace hrest ih =>
    intro hle
    have hend := hcut.place_le hle
    have hprogress := hcut.progress hstart
    have hdecoded := hcut.decoded.2
    have hsmall := hcut.within.small
    obtain ⟨hsum, hlength⟩ := ih hend
    rw [List.map_cons, List.sum_cons, List.flatMap_cons, List.length_append, coding.length_chunk]
    omega

theorem compress_spec {data : Bytes} {limits : Limits} (hbytes : data.length ≤ limits.maxBytes) :
    ∃ codings, Chunked data 0 codings ∧
      ((compress data limits = pure (signature :: codings.flatMap Coding.chunk) ∧
          (signature :: codings.flatMap Coding.chunk).length ≤ limits.maxBytes) ∨
        ∃ seen, limits.maxBytes < seen ∧ seen ≤ 1 + 4 * data.length ∧
          compress data limits = throw (overBytes limits seen)) := by
  obtain ⟨codings, hchunked, hcodings⟩ :=
    codeChunks_spec data limits data.length [signature] (Nat.zero_le _) (Nat.le_add_right _ _)
  have hcheck : limits.checkBytes data.length = .ok () := if_neg (Nat.not_lt.mpr hbytes)
  have hlength := (hchunked.sizes (Nat.zero_le _)).2
  refine ⟨codings, hchunked, ?_⟩
  unfold compress
  rw [hcheck, Looping.ok_bind]
  rcases hcodings with hcodings | ⟨seen, hover, hmost, hcodings⟩
  · rw [hcodings, pure_bind, List.singleton_append]
    rcases checkBytes_eq limits (signature :: codings.flatMap Coding.chunk).length with
      ⟨hfinal, hwithin⟩ | ⟨hfinal, hover⟩
    · left
      rw [hfinal, Looping.ok_bind]
      exact ⟨rfl, hwithin⟩
    · right
      rw [hfinal, Looping.error_bind]
      refine ⟨_, hover, ?_, rfl⟩
      rw [List.length_cons]
      omega
  · right
    rw [hcodings, Looping.throw_bind]
    exact ⟨seen, hover, hmost, rfl⟩

/-- Compressing ends with chunks within their budgets that take all of the data, refused only for
a ceiling on the container; and it reads back when no chunk starts at the last byte. -/
theorem round_trips (data : Bytes) (limits : Limits) (hbytes : data.length ≤ limits.maxBytes)
    (hlimit : data.length ≤ limits.maxDecompressedBytes) :
    ∃ codings : List Coding,
      (∀ coding ∈ codings,
        coding.finished.length ≤ sizeMask + sizeBias ∧ coding.decoded ≤ chunkOutput) ∧
      (codings.map Coding.decoded).sum = data.length ∧
      ((compress data limits = pure (signature :: codings.flatMap Coding.chunk) ∧
          (decompress (signature :: codings.flatMap Coding.chunk) limits = pure data ↔
            ∀ start ∈ chunkStarts data, start + 1 ≠ data.length)) ∨
        ∃ seen, limits.maxBytes < seen ∧ seen ≤ 1 + 4 * data.length ∧
          compress data limits = throw (overBytes limits seen)) := by
  obtain ⟨codings, hchunked, hcompress⟩ := compress_spec hbytes
  refine ⟨codings, hchunked.bounds, (hchunked.sizes (Nat.zero_le _)).1, ?_⟩
  rcases hcompress with ⟨hcompress, hwithin⟩ | hover
  · left
    refine ⟨hcompress, ?_⟩
    have hcheck : limits.checkBytes (signature :: codings.flatMap Coding.chunk).length = .ok () :=
      if_neg (Nat.not_lt.mpr hwithin)
    have hread := hchunked.read hlimit data.length (codings.flatMap Coding.chunk).length 0
      (Nat.zero_le _) (Nat.le_add_right _ _) (Nat.le_refl _)
    unfold decompress
    rw [hcheck, Looping.ok_bind]
    dsimp only
    rw [if_neg (not_not.mpr rfl)]
    unfold chunkStarts
    rw [List.take_zero] at hread
    rcases hread with ⟨hgood, hread⟩ | ⟨⟨place, hin, hbad⟩, cause, hread⟩
    · exact ⟨fun _ => hgood, fun _ => hread⟩
    · constructor
      · intro hsame
        rw [hread] at hsame
        cases hsame
      · exact fun hnone => absurd hbad (hnone place hin)
  · exact .inr hover

/-- Forty bytes of text make one chunk. -/
theorem round_trips_chunk : ∃ container : Bytes,
    compress (List.replicate 40 0x61) ⟨1000, 1000⟩ = pure container ∧
      decompress container ⟨1000, 1000⟩ = pure (List.replicate 40 0x61) := by
  obtain ⟨codings, -, -, ⟨hcompress, hread⟩ | ⟨seen, hover, hmost, -⟩⟩ :=
    round_trips (List.replicate 40 0x61) ⟨1000, 1000⟩ (by decide) (by decide)
  · exact ⟨_, hcompress, hread.mpr (by decide +kernel)⟩
  · exact absurd (Nat.lt_of_lt_of_le hover hmost) (by decide)

/-- One byte is coded as two, and its header says three. -/
theorem not_round_trip : ¬ ∀ (data : Bytes) (limits : Limits), data.length ≤ limits.maxBytes →
    data.length ≤ limits.maxDecompressedBytes → ∀ container,
      compress data limits = pure container → decompress container limits = pure data := by
  intro h
  have hcompress : compress [0x61] ⟨1000, 1000⟩ = pure [0x01, 0x00, 0x80, 0x00, 0x61] := by
    decide +kernel
  have hread : decompress [0x01, 0x00, 0x80, 0x00, 0x61] ⟨1000, 1000⟩ ≠ pure [0x61] := by
    decide +kernel
  exact hread (h [0x61] ⟨1000, 1000⟩ (by decide) (by decide) _ hcompress)

end LogicalWorks.Vba
