import LogicalWorks.Vba.Decoded
import LogicalWorks.Lib.Checks
import Mathlib.Data.Nat.Log

/-! What a container means by the published format: the abstract side the decompressor is compared
with. Copy tokens are split by how much of the chunk is decompressed, and a chunk sees no bytes
but its own. -/
namespace LogicalWorks.Vba.Specified

open Window

/-- Bits of a copy token that hold the offset: the fewest, four at least, that count the bytes of
the chunk decompressed so far. -/
def bitCount (decompressed : Nat) : Nat := max 4 (Nat.clog 2 decompressed)

def lengthMask (decompressed : Nat) : Nat := 0xffff >>> bitCount decompressed

def tokenLength (decompressed token : Nat) : Nat := (token &&& lengthMask decompressed) + 3

def tokenOffset (decompressed token : Nat) : Nat := (token >>> (16 - bitCount decompressed)) + 1

def tokens (flags : Nat) : Nat → Bytes → Bytes → Option Bytes
  | _, [], out => some out
  | position, byte :: rest, out =>
    if 8 ≤ position then tokens byte.toNat 0 rest out
    else if !flags.testBit position then tokens flags (position + 1) rest (out ++ [byte])
    else
      match rest with
      | [] => none
      | high :: rest =>
        let token := byte.toNat + high.toNat * 256
        (Item.play out (.copy (tokenOffset out.length token)
          (tokenLength out.length token))).bind (tokens flags (position + 1) rest)

structure Chunk where
  compressed : Bool
  size : Nat
  output : Bytes
  deriving DecidableEq, Repr

def chunk : Bytes → Option Chunk
  | low :: high :: after =>
    let header := low.toNat + high.toNat * 256
    let size := (header &&& 0x0fff) + 3
    if (header >>> 12) &&& 7 ≠ 3 ∨ after.length + 2 < size then none
    else if header >>> 15 = 0 then
      if size = 4098 then some ⟨false, size, after.take 4096⟩ else none
    else
      (tokens 0 8 (after.take (size - 2)) []).bind fun output =>
        if output.length ≤ 4096 then some ⟨true, size, output⟩ else none
  | _ => none

inductive Chunks : Bytes → List Chunk → Prop
  | done : Chunks [] []
  | more {bytes : Bytes} {first : Chunk} {rest : List Chunk} (hfirst : chunk bytes = some first)
      (hrest : Chunks (bytes.drop first.size) rest) : Chunks bytes (first :: rest)

def output (chunks : List Chunk) : Bytes := chunks.flatMap Chunk.output

def parse : Nat → Bytes → Option (List Chunk)
  | _, [] => some []
  | 0, _ :: _ => none
  | rounds + 1, bytes =>
    (chunk bytes).bind fun first => (parse rounds (bytes.drop first.size)).map (first :: ·)

theorem Chunks.of_parse (rounds : Nat) : ∀ {bytes : Bytes} {chunks : List Chunk},
    parse rounds bytes = some chunks → Chunks bytes chunks := by
  induction rounds with
  | zero =>
    intro bytes chunks h
    cases bytes with
    | nil =>
      cases h
      exact .done
    | cons byte rest => cases h
  | succ rounds ih =>
    intro bytes chunks h
    cases bytes with
    | nil =>
      cases h
      exact .done
    | cons byte rest =>
      obtain ⟨first, hfirst, hrest⟩ := Option.bind_eq_some_iff.mp h
      obtain ⟨others, hothers, rfl⟩ := Option.map_eq_some_iff.mp hrest
      exact .more hfirst (ih hothers)

end LogicalWorks.Vba.Specified

/-! Where the decompressor reads what the published format means: raw chunks, and no others. -/
namespace LogicalWorks.Vba

namespace Limits

theorem checkDecompressed_eq {limits : Limits} {seen : Nat}
    (h : limits.checkDecompressed seen = .ok ()) : seen ≤ limits.maxDecompressedBytes := by
  unfold checkDecompressed at h
  split at h
  · cases h
  · rename_i hwithin
    exact Nat.le_of_not_lt hwithin

end Limits

theorem length_copyToken {offset : Nat} (length : Nat) : ∀ {out final : Bytes},
    copyToken offset length out = .ok final → final.length = out.length + length := by
  induction length with
  | zero =>
    intro out final h
    cases h
    rfl
  | succ length ih =>
    intro out final h
    rw [copyToken] at h
    split at h
    · cases h
    · rw [ih h, List.length_append, List.length_singleton]
      omega

theorem length_decompressChunk (limits : Limits) (count : Nat) : ∀ {flags position cursor : Nat}
    {chunk out final : Bytes}, chunk.length ≤ count → out.length ≤ limits.maxDecompressedBytes →
      decompressChunk limits flags position cursor chunk out = .ok final →
        final.length ≤ limits.maxDecompressedBytes := by
  induction count with
  | zero =>
    intro flags position cursor chunk out final hcount hout h
    rw [List.length_eq_zero_iff.mp (Nat.le_zero.mp hcount), decompressChunk] at h
    cases h
    exact hout
  | succ count ih =>
    intro flags position cursor chunk out final hcount hout h
    cases chunk with
    | nil =>
      rw [decompressChunk] at h
      cases h
      exact hout
    | cons byte rest =>
      have hrest : rest.length ≤ count := Nat.le_of_succ_le_succ hcount
      unfold decompressChunk at h
      split at h
      · exact ih hrest hout h
      · split at h
        · -- A literal.
          obtain ⟨_, hcheck, h⟩ := bind_eq_ok.mp h
          refine ih hrest ?_ h
          rw [List.length_append]
          exact Limits.checkDecompressed_eq hcheck
        · split at h
          · cases h
          · rename_i high rest
            rw [List.length_cons] at hrest
            dsimp only at h
            split at h
            · cases h
            · -- A copy.
              obtain ⟨_, hcheck, h⟩ := bind_eq_ok.mp h
              obtain ⟨copied, hcopy, h⟩ := bind_eq_ok.mp h
              refine ih (by omega) ?_ h
              rw [length_copyToken _ hcopy]
              exact Limits.checkDecompressed_eq hcheck

theorem readChunk_bounds {limits : Limits} {cursor : Nat} {rest out : Bytes} {read : Nat × Bytes}
    (hout : out.length ≤ limits.maxDecompressedBytes)
    (h : readChunk limits cursor rest out = .ok read) :
    2 ≤ read.1 ∧ read.2.length ≤ limits.maxDecompressedBytes := by
  unfold readChunk at h
  split at h
  · dsimp only at h
    split at h
    · split at h
      · cases h
      · rename_i hroom
        obtain ⟨_, hcheck, h⟩ := bind_eq_ok.mp h
        cases h
        refine ⟨Nat.le_add_right _ _, ?_⟩
        rw [List.length_append, List.length_take_of_le (Nat.le_of_not_lt hroom)]
        exact Limits.checkDecompressed_eq hcheck
    · split at h
      · cases h
      · obtain ⟨final, hchunk, h⟩ := bind_eq_ok.mp h
        cases h
        exact ⟨Nat.le_add_right _ _, length_decompressChunk limits _ (Nat.le_refl _) hout hchunk⟩
  · cases h

theorem readChunks_ends (limits : Limits) (rounds : Nat) : ∀ {cursor : Nat} {rest out : Bytes},
    rest.length ≤ rounds → out.length ≤ limits.maxDecompressedBytes →
      (∃ final, readChunks limits rounds cursor rest out = pure final ∧
          final.length ≤ limits.maxDecompressedBytes) ∨
        ∃ cause, readChunks limits rounds cursor rest out = throw cause := by
  induction rounds with
  | zero =>
    intro cursor rest out hrounds hout
    rw [List.length_eq_zero_iff.mp (Nat.le_zero.mp hrounds), readChunks]
    exact .inl ⟨out, rfl, hout⟩
  | succ rounds ih =>
    intro cursor rest out hrounds hout
    cases rest with
    | nil =>
      rw [readChunks]
      exact .inl ⟨out, rfl, hout⟩
    | cons byte rest =>
      rw [readChunks]
      · cases hread : readChunk limits cursor (byte :: rest) out with
        | error cause => exact .inr ⟨cause, rfl⟩
        | ok read =>
          obtain ⟨htwo, hlimit⟩ := readChunk_bounds hout hread
          rw [Looping.ok_bind]
          refine ih ?_ hlimit
          rw [List.length_drop]
          omega
      · intro hnone
        cases hnone

theorem decompress_ends (data : Bytes) (limits : Limits) :
    (∃ out, decompress data limits = pure out ∧ out.length ≤ limits.maxDecompressedBytes) ∨
      ∃ cause, decompress data limits = throw cause := by
  unfold decompress
  cases hcheck : limits.checkBytes data.length with
  | error cause => exact .inr ⟨cause, rfl⟩
  | ok checked =>
    rw [Looping.ok_bind]
    cases data with
    | nil => exact .inr ⟨_, rfl⟩
    | cons first rest =>
      dsimp only
      split
      · exact .inr ⟨_, rfl⟩
      · exact readChunks_ends limits rest.length (Nat.le_refl _) (Nat.zero_le _)

/-- From the start of each chunk the decompressor reads it as the format says: the bytes it takes,
and its output. -/
def Follows (limits : Limits) : Nat → Bytes → Bytes → List Specified.Chunk → Prop
  | _, _, _, [] => True
  | cursor, rest, out, chunk :: chunks =>
    readChunk limits cursor rest out = .ok (chunk.size, out ++ chunk.output) ∧
      Follows limits (cursor + chunk.size) (rest.drop chunk.size) (out ++ chunk.output) chunks

namespace Specified

theorem chunk_eq_some {bytes : Bytes} {first : Chunk} (h : chunk bytes = some first) :
    ∃ low high after, bytes = low :: high :: after ∧ 3 ≤ first.size ∧
      first.size ≤ after.length + 2 ∧
        ((first.compressed = false ∧ (low.toNat + high.toNat * 256) / compressedFlag = 0 ∧
            first.size = 2 + chunkOutput ∧ first.output = after.take chunkOutput) ∨
          (first.compressed = true ∧ (low.toNat + high.toNat * 256) / compressedFlag ≠ 0 ∧
            first.size = (low.toNat + high.toNat * 256) % (sizeMask + 1) + 3)) := by
  unfold chunk at h
  split at h
  · rename_i low high after
    have hmask : (low.toNat + high.toNat * 256) &&& 0x0fff =
        (low.toNat + high.toNat * 256) % (sizeMask + 1) :=
      Nat.and_two_pow_sub_one_eq_mod _ 12
    have hshift : (low.toNat + high.toNat * 256) >>> 15 =
        (low.toNat + high.toNat * 256) / compressedFlag := Nat.shiftRight_eq_div_pow _ 15
    dsimp only at h
    rw [hmask, hshift] at h
    split at h
    · cases h
    · rename_i hvalid
      have hfit := Nat.le_of_not_lt (not_or.mp hvalid).2
      refine ⟨low, high, after, rfl, ?_⟩
      split at h
      · rename_i hraw
        split at h
        · rename_i hsize
          cases h
          exact ⟨Nat.le_add_left 3 _, hfit, .inl ⟨rfl, hraw, hsize, rfl⟩⟩
        · cases h
      · rename_i hpacked
        obtain ⟨packed, -, h⟩ := Option.bind_eq_some_iff.mp h
        split at h
        · cases h
          exact ⟨Nat.le_add_left 3 _, hfit, .inr ⟨rfl, hpacked, rfl⟩⟩
        · cases h
  · cases h

theorem output_cons (first : Chunk) (rest : List Chunk) :
    output (first :: rest) = first.output ++ output rest := List.flatMap_cons

end Specified

theorem readChunk_raw {limits : Limits} {bytes out : Bytes} {first : Specified.Chunk}
    (cursor : Nat) (h : Specified.chunk bytes = some first) (hraw : first.compressed = false)
    (hlimit : out.length + first.output.length ≤ limits.maxDecompressedBytes) :
    readChunk limits cursor bytes out = .ok (first.size, out ++ first.output) := by
  obtain ⟨low, high, after, rfl, -, hroom, ⟨-, hflag, hsize, houtput⟩ | ⟨hpacked, -⟩⟩ :=
    Specified.chunk_eq_some h
  · have hlong : chunkOutput ≤ after.length := by omega
    rw [houtput, List.length_take_of_le hlong] at hlimit
    rw [readChunk]
    dsimp only
    rw [if_pos hflag, if_neg (Nat.not_lt.mpr hlong), checkDecompressed_ok hlimit, hsize, houtput]
    rfl
  · rw [hraw] at hpacked
    cases hpacked

theorem readChunk_compressed {limits : Limits} {bytes out : Bytes} {first : Specified.Chunk}
    {read : Nat × Bytes} (cursor : Nat) (h : Specified.chunk bytes = some first)
    (hpacked : first.compressed = true) (hread : readChunk limits cursor bytes out = .ok read) :
    read.1 = first.size + 2 := by
  obtain ⟨low, high, after, rfl, -, hroom, ⟨hraw, -⟩ | ⟨-, hflag, hsize⟩⟩ :=
    Specified.chunk_eq_some h
  · rw [hpacked] at hraw
    cases hraw
  · rw [readChunk] at hread
    dsimp only at hread
    rw [if_neg hflag] at hread
    split at hread
    · cases hread
    · obtain ⟨final, -, hread⟩ := bind_eq_ok.mp hread
      cases hread
      unfold sizeBias
      omega

theorem follows_iff {limits : Limits} {bytes : Bytes} {chunks : List Specified.Chunk}
    (h : Specified.Chunks bytes chunks) : ∀ {cursor : Nat} {out : Bytes},
      out.length + (Specified.output chunks).length ≤ limits.maxDecompressedBytes →
        (Follows limits cursor bytes out chunks ↔ ∀ chunk ∈ chunks, chunk.compressed = false) := by
  induction h with
  | done =>
    intro cursor out hlimit
    exact ⟨fun _ _ hin => absurd hin List.not_mem_nil, fun _ => trivial⟩
  | @more bytes first rest hfirst hrest ih =>
    intro cursor out hlimit
    rw [Specified.output_cons, List.length_append] at hlimit
    have hlater := @ih (cursor + first.size) (out ++ first.output)
      (by rw [List.length_append]; omega)
    rw [Follows, hlater, List.forall_mem_cons]
    refine and_congr_left fun _ => ?_
    constructor
    · intro hread
      by_contra hpacked
      have hmore := readChunk_compressed cursor hfirst (Bool.eq_true_of_not_eq_false hpacked) hread
      dsimp only at hmore
      omega
    · intro hraw
      exact readChunk_raw cursor hfirst hraw (by omega)

theorem Follows.read {limits : Limits} {bytes : Bytes} {chunks : List Specified.Chunk}
    (h : Specified.Chunks bytes chunks) : ∀ (rounds : Nat) {cursor : Nat} {out : Bytes},
      bytes.length ≤ rounds → Follows limits cursor bytes out chunks →
        readChunks limits rounds cursor bytes out = pure (out ++ Specified.output chunks) := by
  induction h with
  | done =>
    intro rounds cursor out _ _
    rw [readChunks]
    exact congrArg pure (List.append_nil out).symm
  | @more bytes first rest hfirst hrest ih =>
    intro rounds cursor out hrounds hfollows
    obtain ⟨low, high, after, rfl, hsize, -⟩ := Specified.chunk_eq_some hfirst
    rw [List.length_cons] at hrounds
    obtain ⟨rounds, rfl⟩ : ∃ fewer, rounds = fewer + 1 := ⟨rounds - 1, by omega⟩
    obtain ⟨hread, hlater⟩ := hfollows
    rw [readChunks, hread, Looping.ok_bind]
    · dsimp only
      rw [ih rounds (by rw [List.length_drop, List.length_cons]; omega) hlater,
        Specified.output_cons, List.append_assoc]
    · intro hnone
      cases hnone

theorem readChunks_last {limits : Limits} {last : Specified.Chunk} (hpacked : last.compressed = true)
    (early : List Specified.Chunk) : ∀ (rounds : Nat) {cursor : Nat} {bytes out : Bytes},
      Specified.Chunks bytes (early ++ [last]) → (∀ chunk ∈ early, chunk.compressed = false) →
        bytes.length ≤ rounds →
          out.length + (Specified.output early).length ≤ limits.maxDecompressedBytes →
            ∃ cause, readChunks limits rounds cursor bytes out = throw cause := by
  induction early with
  | nil =>
    intro rounds cursor bytes out h _ hrounds _
    cases h with
    | more hfirst hrest =>
      obtain ⟨low, high, after, rfl, -, -, ⟨hraw, -⟩ | ⟨-, hflag, hsize⟩⟩ :=
        Specified.chunk_eq_some hfirst
      · rw [hpacked] at hraw
        cases hraw
      · have hend : (low :: high :: after).drop last.size = [] := by
          cases hdrop : (low :: high :: after).drop last.size with
          | nil => rfl
          | cons byte more =>
            rw [hdrop] at hrest
            cases hrest
        have hshort : after.length <
            (low.toNat + high.toNat * 256) % (sizeMask + 1) + sizeBias := by
          have hall := List.drop_eq_nil_iff.mp hend
          rw [List.length_cons, List.length_cons] at hall
          unfold sizeBias
          omega
        rw [List.length_cons] at hrounds
        obtain ⟨rounds, rfl⟩ : ∃ fewer, rounds = fewer + 1 := ⟨rounds - 1, by omega⟩
        refine ⟨.truncated (cursor + 2) (cursor + 2 +
          ((low.toNat + high.toNat * 256) % (sizeMask + 1) + sizeBias)), ?_⟩
        rw [readChunks, readChunk]
        · dsimp only
          rw [if_neg hflag, if_pos hshort]
          rfl
        · intro hnone
          cases hnone
  | cons first early ih =>
    intro rounds cursor bytes out h hraw hrounds hlimit
    rw [Specified.output_cons, List.length_append] at hlimit
    cases h with
    | more hfirst hrest =>
      have hread := readChunk_raw cursor hfirst (hraw first List.mem_cons_self)
        (Nat.le_trans (Nat.add_le_add_left (Nat.le_add_right _ _) _) hlimit)
      obtain ⟨low, high, after, rfl, hsize, -⟩ := Specified.chunk_eq_some hfirst
      rw [List.length_cons] at hrounds
      obtain ⟨rounds, rfl⟩ : ∃ fewer, rounds = fewer + 1 := ⟨rounds - 1, by omega⟩
      rw [readChunks, hread, Looping.ok_bind]
      · refine ih rounds hrest (fun chunk hin => hraw chunk (List.mem_cons_of_mem _ hin)) ?_ ?_
        · rw [List.length_drop, List.length_cons]
          omega
        · rw [List.length_append]
          omega
      · intro hnone
        cases hnone

theorem decompress_within {limits : Limits} {bytes : Bytes}
    (hbytes : (signature :: bytes).length ≤ limits.maxBytes) :
    decompress (signature :: bytes) limits = readChunks limits bytes.length 0 bytes [] := by
  have hcheck : limits.checkBytes (signature :: bytes).length = .ok () :=
    if_neg (Nat.not_lt.mpr hbytes)
  unfold decompress
  rw [hcheck, Looping.ok_bind]
  exact if_neg (not_not.mpr rfl)

theorem split_iff {decompressed : Nat} (h : decompressed ≤ chunkOutput) :
    (∀ token ≤ 0xffff,
      token % 16 + lengthBias = Specified.tokenLength decompressed token ∧
        token / 16 + offsetBias = Specified.tokenOffset decompressed token) ↔
      2048 < decompressed := by
  unfold Specified.tokenLength Specified.tokenOffset Specified.lengthMask
  constructor
  · intro hsplit
    by_contra hearly
    obtain ⟨-, hoffset⟩ := hsplit 0x10 (by decide)
    have hbits : Specified.bitCount decompressed ≤ 11 :=
      Nat.max_le.mpr ⟨by decide, Nat.clog_le_of_le_pow (Nat.le_of_not_lt hearly)⟩
    have hwide : 2 ^ 5 ≤ 2 ^ (16 - Specified.bitCount decompressed) :=
      Nat.pow_le_pow_right (by decide) (by omega)
    rw [Nat.shiftRight_eq_div_pow, Nat.div_eq_of_lt (Nat.lt_of_lt_of_le (by decide) hwide)] at hoffset
    exact absurd hoffset (by decide)
  · intro hlate token _
    have hbits : Specified.bitCount decompressed = 12 := by
      have hmost : Nat.clog 2 decompressed ≤ 12 := Nat.clog_le_of_le_pow h
      have hleast : 11 < Nat.clog 2 decompressed := (Nat.lt_clog_iff_pow_lt (by decide)).mpr hlate
      unfold Specified.bitCount
      omega
    rw [hbits]
    exact ⟨congrArg (· + 3) (Nat.and_two_pow_sub_one_eq_mod token 4).symm,
      congrArg (· + 1) (Nat.shiftRight_eq_div_pow token 4).symm⟩

/-- Reading ends for all bytes, within the ceiling. A container is read chunk by chunk as the format
says exactly when its chunks are raw, and then decompresses to their output; it is refused when only
its last chunk is compressed; and a token is split as the format says, whatever it is, exactly
behind half of a chunk. -/
theorem conforms (limits : Limits) {bytes : Bytes} {chunks : List Specified.Chunk}
    (hchunks : Specified.Chunks bytes chunks)
    (hbytes : (signature :: bytes).length ≤ limits.maxBytes)
    (hlimit : (Specified.output chunks).length ≤ limits.maxDecompressedBytes) :
    (∀ data, (∃ out, decompress data limits = pure out ∧
        out.length ≤ limits.maxDecompressedBytes) ∨ ∃ cause, decompress data limits = throw cause) ∧
      (Follows limits 0 bytes [] chunks ↔ ∀ chunk ∈ chunks, chunk.compressed = false) ∧
      ((∀ chunk ∈ chunks, chunk.compressed = false) →
        decompress (signature :: bytes) limits = pure (Specified.output chunks)) ∧
      (∀ early last, chunks = early ++ [last] → (∀ chunk ∈ early, chunk.compressed = false) →
        last.compressed = true → ∃ cause, decompress (signature :: bytes) limits = throw cause) ∧
      ∀ decompressed ≤ chunkOutput,
        ((∀ token ≤ 0xffff,
          token % 16 + lengthBias = Specified.tokenLength decompressed token ∧
            token / 16 + offsetBias = Specified.tokenOffset decompressed token) ↔
          2048 < decompressed) := by
  have hfollows := @follows_iff limits bytes chunks hchunks 0 [] (by
    rw [List.length_nil, Nat.zero_add]
    exact hlimit)
  rw [decompress_within hbytes]
  refine ⟨fun data => decompress_ends data limits, hfollows, ?_, ?_, fun _ => split_iff⟩
  · intro hraw
    exact Follows.read hchunks bytes.length (Nat.le_refl _) (hfollows.mpr hraw)
  · rintro early last rfl hraw hpacked
    refine readChunks_last hpacked early bytes.length hchunks hraw (Nat.le_refl _) ?_
    unfold Specified.output at hlimit ⊢
    rw [List.flatMap_append, List.length_append] at hlimit
    rw [List.length_nil]
    omega

/-- A container of one compressed chunk: the format's own example, behind the signature. -/
def exampleBytes : Bytes :=
  [0x2f, 0xb0, 0x00, 0x23, 0x61, 0x61, 0x61, 0x62, 0x63, 0x64, 0x65, 0x82, 0x66, 0x00, 0x70, 0x61,
    0x67, 0x68, 0x69, 0x6a, 0x01, 0x38, 0x08, 0x61, 0x6b, 0x6c, 0x00, 0x30, 0x6d, 0x6e, 0x6f, 0x70,
    0x06, 0x71, 0x02, 0x70, 0x04, 0x10, 0x72, 0x73, 0x74, 0x75, 0x76, 0x10, 0x77, 0x78, 0x79, 0x7a,
    0x00, 0x3c]

def exampleOutput : Bytes :=
  "#aaabcdefaaaaghijaaaaaklaaamnopqaaaaaaaaaaaarstuvwxyzaaa".toList.map
    fun letter => UInt8.ofNat letter.toNat

theorem chunks_example : Specified.Chunks exampleBytes [⟨true, 50, exampleOutput⟩] :=
  .of_parse 1 (by decide +kernel)

theorem conforms_example : ¬ Follows ⟨1000, 1000⟩ 0 exampleBytes [] [⟨true, 50, exampleOutput⟩] := by
  rw [(conforms ⟨1000, 1000⟩ chunks_example (by decide) (by decide +kernel)).2.1]
  decide

/-- The example of the format does not decompress. -/
theorem not_conforms : ¬ ∀ (limits : Limits) (bytes : Bytes) (chunks : List Specified.Chunk),
    Specified.Chunks bytes chunks → (signature :: bytes).length ≤ limits.maxBytes →
      (Specified.output chunks).length ≤ limits.maxDecompressedBytes →
        decompress (signature :: bytes) limits = pure (Specified.output chunks) := by
  intro h
  have hread : decompress (signature :: exampleBytes) ⟨1000, 1000⟩ ≠
      pure (Specified.output [⟨true, 50, exampleOutput⟩]) := by
    decide +kernel
  exact hread (h ⟨1000, 1000⟩ exampleBytes _ chunks_example (by decide) (by decide +kernel))

end LogicalWorks.Vba
