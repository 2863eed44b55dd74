import LogicalWorks.Lib.Checks
import LogicalWorks.Lib.KeyedChain
import LogicalWorks.Token.Policy

/-! A bearer token can only be narrowed, where the keyed hash is a free constructor and the root
key is not known; and which requests the evaluator answers at all. -/
namespace LogicalWorks.Token

/-- Tags taken symbolically: an unkeyed hash is a value anyone may name. -/
abbrev FreeTag := SymbolicTag Bytes (List Bytes)

instance freeHash : KeyedHash FreeTag where
  keyed := .keyed
  framed := .plain

def authority : Authority FreeTag := ⟨.secret⟩

def Minted (token : BearerToken FreeTag) : Prop :=
  ∃ audience action resource ttl now draw,
    authority.mint audience action resource ttl now draw = .ok token

def Authentic (token : BearerToken FreeTag) : Prop :=
  chainOver authority.root token.id token.caveats = .ok token.tag

def Built (minted : Set (BearerToken FreeTag)) (token : BearerToken FreeTag) : Prop :=
  SymbolicTag.Derivable { tag | ∃ origin ∈ minted, origin.tag = tag } token.tag

theorem foldlM_foldStep {start tag : FreeTag} {caveats : List Caveat} :
    caveats.foldlM foldStep start = .ok tag ↔
      ∃ steps, List.Forall₂ (fun caveat step => canonicalCaveat caveat = .ok step) caveats steps ∧
        start.chain steps = tag := by
  induction caveats generalizing start with
  | nil =>
    constructor
    · intro h
      cases h
      exact ⟨[], .nil, rfl⟩
    · rintro ⟨steps, hsteps, rfl⟩
      cases hsteps
      rfl
  | cons caveat rest ih =>
    rw [List.foldlM_cons]
    unfold foldStep
    cases hbytes : canonicalCaveat caveat with
    | error refusal =>
      constructor
      · intro h
        cases h
      · rintro ⟨steps, hsteps, -⟩
        cases hsteps with
        | cons hstep _ => rw [hbytes] at hstep; cases hstep
    | ok bytes =>
      constructor
      · intro h
        obtain ⟨steps, hsteps, rfl⟩ := ih.mp h
        exact ⟨bytes :: steps, .cons hbytes hsteps, rfl⟩
      · rintro ⟨steps, hsteps, rfl⟩
        cases hsteps with
        | cons hstep hrest =>
          rw [hbytes] at hstep
          cases hstep
          exact ih.mpr ⟨_, hrest, rfl⟩

theorem chainOver_eq_ok {id : TokenId} {caveats : List Caveat} {tag : FreeTag} :
    chainOver authority.root id caveats = .ok tag ↔
      ∃ steps, List.Forall₂ (fun caveat step => canonicalCaveat caveat = .ok step) caveats steps ∧
        SymbolicTag.secret.chain (id.val :: steps) = tag := foldlM_foldStep

theorem Minted.chain {token : BearerToken FreeTag} (h : Minted token) :
    ∃ caveat bytes, token.caveats = [caveat] ∧ canonicalCaveat caveat = .ok bytes ∧
      token.tag = SymbolicTag.secret.chain [token.id.val, bytes] := by
  obtain ⟨audience, action, resource, ttl, now, draw, hmint⟩ := h
  unfold Authority.mint at hmint
  cases hcaveat : Caveat.new audience action resource (now.saturatingAdd ttl) with
  | error refusal => rw [hcaveat] at hmint; cases hmint
  | ok caveat =>
    cases draw with
    | none => rw [hcaveat] at hmint; cases hmint
    | some id =>
      cases htag : chainOver authority.root id [caveat] with
      | error refusal => simp only [hcaveat, htag, bind, Except.bind] at hmint; cases hmint
      | ok tag =>
        simp only [hcaveat, htag, bind, Except.bind] at hmint
        cases hmint
        obtain ⟨steps, hsteps, hchain⟩ := chainOver_eq_ok.mp htag
        cases hsteps with
        | cons hstep hrest =>
          cases hrest
          exact ⟨caveat, _, rfl, hstep, hchain.symm⟩

theorem caveats_prefix {first caveats : List Caveat} {firstSteps steps : List Bytes}
    (hfirst : List.Forall₂ (fun caveat step => canonicalCaveat caveat = .ok step) first firstSteps)
    (hall : List.Forall₂ (fun caveat step => canonicalCaveat caveat = .ok step) caveats steps)
    (h : firstSteps <+: steps) : first <+: caveats := by
  induction hfirst generalizing caveats steps with
  | nil => exact List.nil_prefix
  | cons hstep _ ih =>
    cases hall with
    | nil => simp at h
    | cons hother hrest =>
      obtain ⟨rfl, hlater⟩ := List.cons_prefix_cons.mp h
      rw [canonicalCaveat_inj hstep hother]
      exact (List.prefix_cons_inj _).mpr (ih hrest hlater)

theorem Built.starts {minted : Set (BearerToken FreeTag)} {token : BearerToken FreeTag}
    (hminted : ∀ origin ∈ minted, Minted origin) (hbuilt : Built minted token)
    (hauthentic : Authentic token) :
    ∃ origin ∈ minted, origin.id = token.id ∧ origin.caveats <+: token.caveats := by
  obtain ⟨steps, hsteps, hchain⟩ := chainOver_eq_ok.mp hauthentic
  unfold Built at hbuilt
  rw [← hchain] at hbuilt
  obtain ⟨first, hstarts, origin, horigin, htag⟩ := hbuilt.extends
  obtain ⟨caveat, bytes, hcaveats, hbytes, hchained⟩ := (hminted origin horigin).chain
  rw [hchained] at htag
  rw [← SymbolicTag.chain_secret_inj htag] at hstarts
  obtain ⟨hid, hrest⟩ := List.cons_prefix_cons.mp hstarts
  refine ⟨origin, horigin, Subtype.ext hid, ?_⟩
  rw [hcaveats]
  exact caveats_prefix (.cons hbytes .nil) hsteps hrest

theorem check_eq_ok {caveats : List Caveat} :
    BearerToken.check caveats = .ok () ↔
      caveats ≠ [] ∧ caveats.length ≤ maxCaveats ∧ ∀ caveat ∈ caveats, caveat.check = .ok () := by
  unfold BearerToken.check
  by_cases hempty : caveats = []
  · rw [if_pos (List.isEmpty_iff.mpr hempty)]
    exact ⟨fun h => (by cases h), fun h => absurd hempty h.1⟩
  · rw [if_neg (fun h => hempty (List.isEmpty_iff.mp h))]
    by_cases hlong : maxCaveats < caveats.length
    · rw [if_pos hlong]
      exact ⟨fun h => (by cases h), fun h => absurd h.2.1 (by omega)⟩
    · rw [if_neg hlong, forM_eq_ok]
      exact ⟨fun h => ⟨hempty, by omega, h⟩, fun h => h.2.2⟩

theorem lapsed_eq_none {now : Duration} {caveats : List Caveat} :
    Authority.lapsed now caveats = none ↔
      ∀ caveat ∈ caveats, now.nanos < caveat.expiresAt.nanos := by
  simp [Authority.lapsed]

theorem verify_eq_ok {token : BearerToken FreeTag} {revocations : RevocationList} {now : Duration} :
    authority.verify token revocations now = .ok () ↔
      BearerToken.check token.caveats = .ok () ∧ Authentic token ∧
        (∀ caveat ∈ token.caveats, now.nanos < caveat.expiresAt.nanos) ∧
        revocations.contains token.id = false := by
  unfold Authority.verify Authentic
  cases hcheck : BearerToken.check token.caveats with
  | error refusal => exact ⟨fun h => (by cases h), fun h => (by cases h.1)⟩
  | ok answer =>
    cases hchain : chainOver authority.root token.id token.caveats with
    | error refusal => exact ⟨fun h => (by cases h), fun h => (by cases h.2.1)⟩
    | ok recomputed =>
      rw [← lapsed_eq_none]
      simp only [bind, Except.bind, Except.ok.injEq, true_and]
      by_cases hsame : recomputed = token.tag
      · rw [if_neg (not_not.mpr hsame)]
        cases hlapsed : Authority.lapsed now token.caveats with
        | some caveat => exact ⟨fun h => (by cases h), fun h => (by cases h.2.1)⟩
        | none =>
          cases revocations.contains token.id with
          | true => exact ⟨fun h => (by cases h), fun h => (by cases h.2.2)⟩
          | false => exact ⟨fun _ => ⟨hsame, rfl, rfl⟩, fun _ => rfl⟩
      · rw [if_pos hsame]
        exact ⟨fun h => (by cases h), fun h => absurd h.1 hsame⟩

open Policy

theorem allows_iff {token : BearerToken FreeTag} {request : Request}
    {revocations : RevocationList} {now : Duration} :
    Allows authority token request revocations now ↔
      (stamp request now token.id).isSome = true ∧
        authority.verify token revocations now = .ok () ∧
        ∀ caveat ∈ token.caveats, covers caveat request = true := by
  rw [verify_eq_ok]
  unfold Allows Policy.decide Authentic
  cases hcheck : BearerToken.check token.caveats with
  | error refusal =>
    exact ⟨fun ⟨_, h, _⟩ => (by cases h), fun h => (by cases h.2.1.1)⟩
  | ok answer =>
    cases hchain : chainOver authority.root token.id token.caveats with
    | error refusal =>
      exact ⟨fun ⟨_, h, _⟩ => (by cases h), fun h => (by cases h.2.1.2.1)⟩
    | ok recomputed =>
      rw [← lapsed_eq_none, ← List.all_eq_true]
      cases hstamp : stamp request now token.id with
      | none => exact ⟨fun ⟨_, h, _⟩ => (by cases h), fun h => (by cases h.1)⟩
      | some inputs =>
        simp only [Option.map_some, Option.some.injEq, Except.ok.injEq, exists_eq_left',
          Option.isSome_some, true_and]
        unfold walk
        by_cases hsame : recomputed = token.tag
        · rw [if_neg (not_not.mpr hsame)]
          cases hlapsed : Authority.lapsed now token.caveats with
          | some caveat =>
            exact ⟨fun h => (by cases h), fun h => (by cases h.1.2.1)⟩
          | none =>
            cases revocations.contains token.id with
            | true => exact ⟨fun h => (by cases h), fun h => (by cases h.1.2.2)⟩
            | false =>
              simp [finish, hsame]
        · rw [if_pos hsame]
          exact ⟨fun h => (by cases h), fun h => absurd h.1.1 hsame⟩

theorem attenuate_parts {Tag : Type} [KeyedHash Tag] {token narrowed : BearerToken Tag}
    {extra : List Caveat} (h : token.attenuate extra = .ok narrowed) :
    token.caveats ≠ [] ∧ narrowed.id = token.id ∧ narrowed.caveats = token.caveats ++ extra ∧
      extra.foldlM foldStep token.tag = .ok narrowed.tag ∧
      token.caveats.length + extra.length ≤ maxCaveats ∧
      ∀ caveat ∈ extra, caveat.check = .ok () := by
  unfold BearerToken.attenuate at h
  dsimp only at h
  split at h
  · cases h
  · split at h
    · cases h
    · rename_i hroom
      cases hopening : token.caveats.head? with
      | none => rw [hopening] at h; cases h
      | some opening =>
        rw [hopening] at h
        dsimp only at h
        cases hcleared : extra.forM (admitCaveat opening) with
        | error refusal => rw [hcleared] at h; cases h
        | ok answer =>
          cases htag : extra.foldlM foldStep token.tag with
          | error refusal =>
            simp only [hcleared, htag, bind, Except.bind] at h
            cases h
          | ok tag =>
            simp only [hcleared, htag, bind, Except.bind] at h
            cases h
            refine ⟨fun hnil => ?_, rfl, rfl, rfl, ?_, fun caveat hmem => ?_⟩
            · rw [hnil] at hopening
              cases hopening
            · unfold maxCaveats at hroom ⊢
              omega
            · have hadmits := forM_eq_ok.mp hcleared caveat hmem
              unfold admitCaveat at hadmits
              obtain ⟨checked, hcheck, -⟩ := bind_eq_ok.mp hadmits
              exact hcheck

theorem attenuate_authentic {token narrowed : BearerToken FreeTag} {extra : List Caveat}
    (h : token.attenuate extra = .ok narrowed) (hauthentic : Authentic token) :
    Authentic narrowed := by
  obtain ⟨-, hid, hcaveats, htag, -⟩ := attenuate_parts h
  unfold Authentic chainOver at hauthentic ⊢
  rw [hid, hcaveats, List.foldlM_append, hauthentic]
  exact htag

theorem allows_of_attenuate {token narrowed : BearerToken FreeTag} {extra : List Caveat}
    {request : Request} {revocations : RevocationList} {now : Duration}
    (h : token.attenuate extra = .ok narrowed) (hauthentic : Authentic token)
    (hallows : Allows authority narrowed request revocations now) :
    Allows authority token request revocations now := by
  obtain ⟨hnonempty, hid, hcaveats, -⟩ := attenuate_parts h
  obtain ⟨hstamp, hverify, hcovers⟩ := allows_iff.mp hallows
  obtain ⟨hcheck, -, hlive, hrevoked⟩ := verify_eq_ok.mp hverify
  obtain ⟨-, hlength, hvalid⟩ := check_eq_ok.mp hcheck
  have hkept : ∀ caveat ∈ token.caveats, caveat ∈ narrowed.caveats := by
    intro caveat hmem
    rw [hcaveats]
    exact List.mem_append_left _ hmem
  rw [hcaveats, List.length_append] at hlength
  rw [hid] at hstamp hrevoked
  refine allows_iff.mpr ⟨hstamp, verify_eq_ok.mpr ⟨check_eq_ok.mpr ⟨hnonempty, by omega, ?_⟩,
    hauthentic, ?_, hrevoked⟩, fun caveat hmem => hcovers caveat (hkept caveat hmem)⟩
  · exact fun caveat hmem => hvalid caveat (hkept caveat hmem)
  · exact fun caveat hmem => hlive caveat (hkept caveat hmem)

structure OnlyNarrowed (minted : Set (BearerToken FreeTag)) (token : BearerToken FreeTag)
    (request : Request) (revocations : RevocationList) (now : Duration) : Prop where
  starts : Authentic token →
    ∃ origin ∈ minted, origin.id = token.id ∧ origin.caveats <+: token.caveats
  granted : Allows authority token request revocations now →
    ∃ origin ∈ minted, origin.id = token.id ∧ origin.caveats <+: token.caveats ∧
      (∀ caveat ∈ origin.caveats,
        covers caveat request = true ∧ now.nanos < caveat.expiresAt.nanos) ∧
      revocations.contains origin.id = false
  attenuated : ∀ extra narrowed, Authentic token → token.attenuate extra = .ok narrowed →
    Authentic narrowed ∧ (Allows authority narrowed request revocations now →
      Allows authority token request revocations now)
  exact : Allows authority token request revocations now ↔
    authority.verify token revocations now = .ok () ∧
      ∀ caveat ∈ token.caveats, covers caveat request = true

/-- The trace line fits its bound, or the bound falls between two of its characters. -/
def Cuttable (request : Request) (now : Duration) (id : TokenId) : Prop :=
  (line request now id).length ≤ maxTextLen ∨
    isCharBoundary (line request now id) maxTextLen = true

theorem stamp_isSome {request : Request} {now : Duration} {id : TokenId} :
    (stamp request now id).isSome = true ↔ Cuttable request now id := by
  unfold stamp truncate Cuttable
  by_cases hfits : (line request now id).length ≤ maxTextLen
  · simp [hfits]
  · cases isCharBoundary (line request now id) maxTextLen <;> simp [hfits]

/-- A token can only be narrowed at a request the evaluator answers; where it is verified and
covered and its trace line would be cut inside a character, the evaluator panics instead. -/
theorem only_narrowed_iff {minted : Set (BearerToken FreeTag)} {token : BearerToken FreeTag}
    (hminted : ∀ origin ∈ minted, Minted origin) (hbuilt : Built minted token)
    (request : Request) (revocations : RevocationList) (now : Duration) :
    OnlyNarrowed minted token request revocations now ↔
      Cuttable request now token.id ∨
        ¬ (authority.verify token revocations now = .ok () ∧
          ∀ caveat ∈ token.caveats, covers caveat request = true) := by
  constructor
  · intro h
    by_cases hgranted : authority.verify token revocations now = .ok () ∧
        ∀ caveat ∈ token.caveats, covers caveat request = true
    · exact .inl (stamp_isSome.mp (allows_iff.mp (h.exact.mpr hgranted)).1)
    · exact .inr hgranted
  · intro h
    refine ⟨fun hauthentic => hbuilt.starts hminted hauthentic, fun hallows => ?_,
      fun extra narrowed hauthentic hnarrowed => ⟨attenuate_authentic hnarrowed hauthentic,
        allows_of_attenuate hnarrowed hauthentic⟩, fun hallows => (allows_iff.mp hallows).2,
      fun hgranted => allows_iff.mpr ⟨?_, hgranted⟩⟩
    · obtain ⟨-, hverify, hcovers⟩ := allows_iff.mp hallows
      obtain ⟨-, hauthentic, hlive, hrevoked⟩ := verify_eq_ok.mp hverify
      obtain ⟨origin, horigin, hid, hstarts⟩ := hbuilt.starts hminted hauthentic
      refine ⟨origin, horigin, hid, hstarts, fun caveat hmem => ?_, hid ▸ hrevoked⟩
      exact ⟨hcovers caveat (hstarts.subset hmem), hlive caveat (hstarts.subset hmem)⟩
    · rcases h with hcuttable | hrefused
      · exact stamp_isSome.mpr hcuttable
      · exact absurd hgranted hrefused

def Plain (text : Text) : Prop := ∀ byte ∈ text, byte.toNat ≤ 0x7E

def notes : BearerToken FreeTag :=
  let id : TokenId := ⟨List.replicate 32 7, rfl⟩
  let caveat : Caveat := ⟨⟨[97], [114], [slash]⟩, ⟨60, by decide⟩⟩
  ⟨id, [caveat],
    match chainOver authority.root id [caveat] with
    | .ok tag => tag
    | .error _ => .secret⟩

theorem minted_notes : ∀ origin ∈ ({notes} : Set (BearerToken FreeTag)), Minted origin := by
  intro origin horigin
  rw [Set.mem_singleton_iff.mp horigin]
  exact ⟨[97], [114], [slash], ⟨60, by decide⟩, ⟨0, by decide⟩, some notes.id, rfl⟩

theorem built_notes : Built {notes} notes := .held ⟨notes, rfl, rfl⟩

/-- A resource of sixty letters of two bytes each under the root. -/
def accented : Request := ⟨[97], [114], slash :: (List.replicate 60 [0xC3, 0xA9]).flatten⟩

/-- The token verifies and covers the request, and the evaluator panics. -/
theorem accented_not_answered :
    (∀ origin ∈ ({notes} : Set (BearerToken FreeTag)), Minted origin) ∧ Built {notes} notes ∧
      ¬ OnlyNarrowed {notes} notes accented .empty ⟨0, by decide⟩ := by
  refine ⟨minted_notes, built_notes, fun h => ?_⟩
  have hgranted := h.exact.mpr ⟨by decide +kernel, by decide +kernel⟩
  have hstamp := (allows_iff.mp hgranted).1
  revert hstamp
  decide +kernel

theorem notes_only_narrowed :
    OnlyNarrowed {notes} notes ⟨[97], [114], [slash, 120]⟩ .empty ⟨0, by decide⟩ :=
  (only_narrowed_iff minted_notes built_notes _ _ _).mpr (.inl (.inl (by decide +kernel)))

end LogicalWorks.Token
