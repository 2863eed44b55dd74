import LogicalWorks.Proposal.Fields

/-! What becomes work: a payload is admitted for what its lines say, and only where the host
allows all of it. -/
namespace LogicalWorks.Proposal
open Journal (Digest)
open LogicalWorks.Task (utf8)

structure Confined (path : Text) : Prop where
  not_absolute : path.head? ≠ some slash ∧ path.head? ≠ some backslash
  no_drive : colon ∉ path
  no_parent : utf8 ".." ∉ path.splitOn slash

def Granted (surface : Surface) (name : Text) : Prop :=
  ∃ operation, surface.operations.get name = some operation ∧
    ∀ cap ∈ operation.requires, cap ∈ surface.held

structure Allowed (limits : PlanLimits) (surface : Surface) (payload : Bytes) (plan : Plan) :
    Prop where
  size : payload.length ≤ limits.maxBytes
  count : (nonBlank payload).length ≤ limits.maxFields.toNat
  fields : ∀ line ∈ nonBlank payload, ∃ name ∈ knownFields, ∃ value, Says line name value
  no_install : ∀ line ∈ nonBlank payload, ∀ value, ¬Says line (utf8 "install") value
  no_credential : ∀ line ∈ nonBlank payload, ∀ value, ¬Says line (utf8 "credential") value
  host : ∀ line ∈ nonBlank payload, ∀ value, Says line (utf8 "host") value →
    value = surface.tenant
  ops : ∀ line ∈ nonBlank payload, ∀ value, Says line (utf8 "op") value → Granted surface value
  paths : ∀ line ∈ nonBlank payload, ∀ value, Says line (utf8 "path") value → Confined value
  wanted : ∀ work ∈ plan.wanted, Granted surface work.operation ∧
    ∀ path, work.path = some path → Confined path
  coverage : plan.coverage ≠ .complete

def OnlyAllowed [PayloadHash] (limits : PlanLimits) (surface : Surface) (payload : Bytes)
    (source : Source) : Prop :=
  ∃ outcome, Decoder.decode ⟨limits⟩ surface payload source = some outcome ∧
    ∀ plan provenance, outcome = .admitted plan provenance → Allowed limits surface payload plan

def declaredBy (payload : Bytes) : Declared := (nonBlank payload).foldl declareLine .default

structure Admissible (limits : PlanLimits) (surface : Surface) (payload : Bytes) : Prop where
  size : payload.length ≤ limits.maxBytes
  passes : ∀ raw ∈ linesOf payload, Passes limits surface raw
  count : nonBlank payload ≠ [] →
    min (nonBlank payload).length (2 ^ 32 - 1) ≤ limits.maxFields.toNat
  work : (declaredBy payload).isEmpty = false
  paths : ∀ path ∈ (declaredBy payload).paths, Confined path
  ops : ∀ op ∈ (declaredBy payload).ops, Granted surface op

def Tripping (limits : PlanLimits) (surface : Surface) (payload : Bytes) : Prop :=
  payload.length ≤ limits.maxBytes ∧ Stray limits surface 0 (linesOf payload)

/-- More lines than a counter that stays at its last value counts, of a payload that would be
admitted however many it has. -/
def Uncounted (limits : PlanLimits) (surface : Surface) (payload : Bytes) : Prop :=
  limits.maxFields.toNat = 2 ^ 32 - 1 ∧ 2 ^ 32 - 1 < (nonBlank payload).length ∧
    Admissible limits surface payload

variable {limits : PlanLimits} {surface : Surface}

theorem refuseTraversal_eq_ok {path : Text} : refuseTraversal path = .ok () ↔ Confined path := by
  unfold refuseTraversal
  split_ifs with hroot hparent
  · refine ⟨fun h => (by cases h), fun h => ?_⟩
    rcases hroot with hroot | hroot | hroot
    · exact absurd hroot h.not_absolute.1
    · exact absurd hroot h.not_absolute.2
    · exact absurd hroot h.no_drive
  · exact ⟨fun h => (by cases h), fun h => absurd hparent h.no_parent⟩
  · push Not at hroot
    exact ⟨fun _ => ⟨⟨hroot.1, hroot.2.1⟩, hroot.2.2, hparent⟩, fun _ => rfl⟩

theorem missing_eq_none {operation : Operation} {held : List Text} :
    operation.missing held = none ↔ ∀ cap ∈ operation.requires, cap ∈ held := by
  simp [Operation.missing]

theorem authorize_granted {name : Text} :
    (∃ operation, surface.authorize name = .ok operation) ↔ Granted surface name := by
  unfold Surface.authorize Granted
  cases surface.operations.get name with
  | none => exact ⟨fun ⟨_, h⟩ => (by cases h), fun ⟨_, h, _⟩ => (by cases h)⟩
  | some operation =>
    cases hmissing : operation.missing surface.held with
    | none =>
      simp only [hmissing]
      exact ⟨fun _ => ⟨operation, rfl, missing_eq_none.mp hmissing⟩,
        fun _ => ⟨operation, rfl⟩⟩
    | some required =>
      simp only [hmissing]
      refine ⟨fun ⟨_, h⟩ => (by cases h), ?_⟩
      rintro ⟨_, hget, hheld⟩
      cases hget
      rw [missing_eq_none.mpr hheld] at hmissing
      cases hmissing

theorem want_eq_ok {path : Option Text} {op : Text} {work : Wanted} :
    Decoder.want surface path op = .ok work ↔ Granted surface op ∧ work = ⟨op, path⟩ := by
  rw [← authorize_granted]
  unfold Decoder.want
  cases surface.authorize op with
  | error refusal => exact ⟨fun h => (by cases h), fun ⟨⟨_, h⟩, _⟩ => (by cases h)⟩
  | ok operation =>
    constructor
    · intro h
      exact ⟨⟨operation, rfl⟩, (Except.ok.inj h).symm⟩
    · rintro ⟨-, rfl⟩
      rfl

theorem forall₂_want {path : Option Text} {ops : List Text} {wanted : List Wanted} :
    List.Forall₂ (fun op work => Decoder.want surface path op = .ok work) ops wanted ↔
      (∀ op ∈ ops, Granted surface op) ∧ wanted = ops.map fun op => ⟨op, path⟩ := by
  induction ops generalizing wanted with
  | nil => simp
  | cons op rest ih =>
    rw [List.forall₂_cons_left_iff, List.forall_mem_cons, List.map_cons]
    constructor
    · rintro ⟨work, others, hwork, hothers, rfl⟩
      obtain ⟨hgranted, rfl⟩ := want_eq_ok.mp hwork
      obtain ⟨hrest, rfl⟩ := ih.mp hothers
      exact ⟨⟨hgranted, hrest⟩, rfl⟩
    · rintro ⟨⟨hgranted, hrest⟩, rfl⟩
      exact ⟨_, _, want_eq_ok.mpr ⟨hgranted, rfl⟩, ih.mpr ⟨hrest, rfl⟩, rfl⟩

theorem plan_eq_ok {declared : Declared} {provenance : Provenance} {plan : Plan} :
    Decoder.plan surface declared provenance = .ok plan ↔
      declared.isEmpty = false ∧ (∀ path ∈ declared.paths, Confined path) ∧
        (∀ op ∈ declared.ops, Granted surface op) ∧
        plan = ⟨declared.ops.map fun op => ⟨op, declared.paths.head?⟩, declared.notes,
          .fromClaim declared.coverage, provenance⟩ := by
  unfold Decoder.plan
  cases hempty : declared.isEmpty with
  | true => exact ⟨fun h => (by cases h), fun h => (by cases h.1)⟩
  | false =>
    rw [if_neg Bool.false_ne_true]
    simp only [bind_eq_ok, mapM_eq_ok, forall₂_want]
    constructor
    · rintro ⟨_, hpaths, _, ⟨hops, rfl⟩, hplan⟩
      exact ⟨trivial, fun path hmem => refuseTraversal_eq_ok.mp (forM_eq_ok.mp hpaths path hmem),
        hops, (Except.ok.inj hplan).symm⟩
    · rintro ⟨-, hpaths, hops, rfl⟩
      exact ⟨(), forM_eq_ok.mpr fun path hmem => refuseTraversal_eq_ok.mpr (hpaths path hmem),
        _, ⟨hops, rfl⟩, rfl⟩

theorem put_ops (declared : Declared) (name value : Text) :
    (put declared name value).ops =
      if name = utf8 "op" then declared.ops ++ [value] else declared.ops := by
  unfold put
  split_ifs <;> rfl

theorem put_paths (declared : Declared) (name value : Text) :
    (put declared name value).paths =
      if name = utf8 "path" then declared.paths ++ [value] else declared.paths := by
  unfold put
  split_ifs with hop hpath hnote hpath
  · exact absurd (hop.symm.trans hpath) (by decide +kernel)
  · rfl
  · exact absurd (hnote.symm.trans hpath) (by decide +kernel)
  all_goals rfl

theorem mem_gathered {gathered : Declared → List Text} {field : Text}
    (hput : ∀ declared name value, gathered (put declared name value) =
      if name = field then gathered declared ++ [value] else gathered declared)
    {lines : List Bytes} {declared : Declared} {text : Text} :
    text ∈ gathered (lines.foldl declareLine declared) ↔
      text ∈ gathered declared ∨ ∃ line ∈ lines, Says line field text := by
  induction lines generalizing declared with
  | nil => simp
  | cons line rest ih =>
    have hline : text ∈ gathered (declareLine declared line) ↔
        text ∈ gathered declared ∨ Says line field text := by
      unfold declareLine
      cases hsaid : said line with
      | none => simp [Says, hsaid]
      | some field' =>
        obtain ⟨name, value⟩ := field'
        simp only [hput, Says, hsaid, Option.some.injEq, Prod.mk.injEq]
        split_ifs with hname
        · simp [hname, eq_comm]
        · simp [hname]
    rw [List.foldl_cons, ih, hline]
    simp only [List.mem_cons, exists_eq_or_imp, or_assoc]

theorem checkSize_eq_ok {payload : Bytes} :
    Decoder.checkSize ⟨limits⟩ payload = .ok () ↔ payload.length ≤ limits.maxBytes := by
  unfold Decoder.checkSize
  split
  · next h => exact ⟨fun h => (by cases h), fun h' => absurd h' (Nat.not_le.mpr h)⟩
  · next h => exact ⟨fun _ => Nat.not_lt.mp h, fun _ => rfl⟩

theorem read_eq (payload : Bytes) :
    Decoder.read ⟨limits⟩ surface payload =
      Reader.readLines limits surface 0 .default 0 (linesOf payload) := by
  unfold Decoder.read
  rw [Reader.document_eq _ _ _ _ le_rfl, Nat.sub_self]

def planOf (payload : Bytes) (provenance : Provenance) : Plan :=
  ⟨(declaredBy payload).ops.map fun op => ⟨op, (declaredBy payload).paths.head?⟩,
    (declaredBy payload).notes, .fromClaim (declaredBy payload).coverage, provenance⟩

theorem admissible_iff {payload : Bytes} {provenance : Provenance} {plan : Plan} :
    (Decoder.checkSize ⟨limits⟩ payload = .ok () ∧ ∃ declared,
        Decoder.read ⟨limits⟩ surface payload = .ok declared ∧
          Decoder.plan surface declared provenance = .ok plan) ↔
      Admissible limits surface payload ∧ plan = planOf payload provenance := by
  simp only [checkSize_eq_ok, read_eq, readLines_eq_ok, plan_eq_ok, Nat.zero_add]
  constructor
  · rintro ⟨hsize, _, ⟨hpasses, hcount, rfl⟩, hwork, hpaths, hops, rfl⟩
    exact ⟨⟨hsize, hpasses, hcount, hwork, hpaths, hops⟩, rfl⟩
  · rintro ⟨h, rfl⟩
    exact ⟨h.size, _, ⟨h.passes, h.count, rfl⟩, h.work, h.paths, h.ops, rfl⟩

variable {payload : Bytes}

theorem Coverage.fromClaim_ne_complete (claim : Option Text) :
    Coverage.fromClaim claim ≠ .complete := by
  unfold Coverage.fromClaim
  split <;> intro h <;> cases h

theorem Admissible.taken (h : Admissible limits surface payload) :
    ∀ line ∈ nonBlank payload, ∃ name value, Says line name value ∧ Taken surface name value := by
  intro line hmem
  obtain ⟨hline, hsome⟩ := List.mem_filter.mp hmem
  obtain ⟨raw, hraw, rfl⟩ := List.mem_map.mp hline
  exact ((h.passes raw hraw).2 (of_decide_eq_true hsome)).2

theorem mem_declaredBy_ops {op : Text} :
    op ∈ (declaredBy payload).ops ↔ ∃ line ∈ nonBlank payload, Says line (utf8 "op") op := by
  rw [declaredBy, mem_gathered put_ops]
  simp [Declared.default]

theorem mem_declaredBy_paths {path : Text} :
    path ∈ (declaredBy payload).paths ↔
      ∃ line ∈ nonBlank payload, Says line (utf8 "path") path := by
  rw [declaredBy, mem_gathered put_paths]
  simp [Declared.default]

theorem Admissible.allowed (h : Admissible limits surface payload)
    (hcount : (nonBlank payload).length ≤ limits.maxFields.toNat) (provenance : Provenance) :
    Allowed limits surface payload (planOf payload provenance) := by
  have hnames {line : Bytes} (hmem : line ∈ nonBlank payload) {name value : Text}
      (htold : Says line name value) : Taken surface name value := by
    obtain ⟨other, another, hother, htaken⟩ := h.taken line hmem
    cases htold.symm.trans hother
    exact htaken
  refine ⟨h.size, hcount, ?_, ?_, ?_, ?_, ?_, ?_, ?_, Coverage.fromClaim_ne_complete _⟩
  · intro line hmem
    obtain ⟨name, value, htold, htaken⟩ := h.taken line hmem
    refine ⟨name, ?_, value, htold⟩
    rcases htaken with htaken | ⟨rfl, -⟩
    · simp only [List.mem_cons, List.not_mem_nil, or_false] at htaken
      rcases htaken with rfl | rfl | rfl | rfl <;> simp [knownFields]
    · simp [knownFields]
  · exact fun line hmem value htold => install_not_taken (hnames hmem htold)
  · exact fun line hmem value htold => credential_not_taken (hnames hmem htold)
  · exact fun line hmem value htold => taken_host.mp (hnames hmem htold)
  · exact fun line hmem value htold => h.ops value (mem_declaredBy_ops.mpr ⟨line, hmem, htold⟩)
  · exact fun line hmem value htold =>
      h.paths value (mem_declaredBy_paths.mpr ⟨line, hmem, htold⟩)
  · intro work hmem
    obtain ⟨op, hop, rfl⟩ := List.mem_map.mp hmem
    exact ⟨h.ops op hop, fun path hpath => h.paths path (List.mem_of_mem_head? hpath)⟩

variable [PayloadHash] {source : Source}

theorem decode_eq_none :
    Decoder.decode ⟨limits⟩ surface payload source = none ↔ Tripping limits surface payload := by
  rw [Tripping, ← checkSize_eq_ok, ← @readLines_eq_panicked _ _ _ 0 .default, ← read_eq]
  unfold Decoder.decode
  cases hsize : Decoder.checkSize ⟨limits⟩ payload with
  | error stop =>
    cases stop with
    | refused refusal => exact ⟨fun h => (by cases h), fun h => (by cases h.1)⟩
    | panicked =>
      unfold Decoder.checkSize at hsize
      split at hsize <;> cases hsize
  | ok answer =>
    cases Decoder.read ⟨limits⟩ surface payload with
    | error stop =>
      cases stop with
      | refused refusal => exact ⟨fun h => (by cases h), fun h => (by cases h.2)⟩
      | panicked => exact ⟨fun _ => ⟨rfl, rfl⟩, fun _ => rfl⟩
    | ok declared => exact ⟨fun h => (by cases h), fun h => (by cases h.2)⟩

theorem decode_admitted {plan : Plan} {provenance : Provenance} :
    Decoder.decode ⟨limits⟩ surface payload source = some (.admitted plan provenance) ↔
      Admissible limits surface payload ∧ plan = planOf payload provenance ∧
        provenance = ⟨source, surface.tenant, PayloadHash.digest payload, payload.length⟩ := by
  constructor
  · intro h
    unfold Decoder.decode at h
    cases hsize : Decoder.checkSize ⟨limits⟩ payload with
    | error stop => cases stop <;> simp only [hsize] at h <;> cases h
    | ok answer =>
      cases hread : Decoder.read ⟨limits⟩ surface payload with
      | error stop => cases stop <;> simp only [hsize, hread] at h <;> cases h
      | ok declared =>
        simp only [hsize, hread, Decoder.authorize] at h
        split at h
        · next hplan =>
          cases h
          obtain ⟨hadmissible, hplan⟩ := admissible_iff.mp ⟨hsize, declared, hread, hplan⟩
          exact ⟨hadmissible, hplan, rfl⟩
        · cases h
  · rintro ⟨hadmissible, rfl, rfl⟩
    obtain ⟨hsize, declared, hread, hplan⟩ :=
      (@admissible_iff limits surface payload
        ⟨source, surface.tenant, PayloadHash.digest payload, payload.length⟩ _).mpr
        ⟨hadmissible, rfl⟩
    unfold Decoder.decode
    simp only [hsize, hread, Decoder.authorize, hplan]

/-- The decoder answers and admits only what the host allows, unless a name or a value is spaces
and nothing else, or the lines outrun the counter. -/
theorem decode_only_allowed_iff :
    OnlyAllowed limits surface payload source ↔
      ¬Tripping limits surface payload ∧ ¬Uncounted limits surface payload := by
  constructor
  · rintro ⟨outcome, hanswer, hallowed⟩
    refine ⟨fun htrips => ?_, ?_⟩
    · rw [decode_eq_none.mpr htrips] at hanswer
      cases hanswer
    · rintro ⟨hlast, hmany, hadmissible⟩
      have hadmitted := (@decode_admitted _ _ _ _ source _ _).mpr ⟨hadmissible, rfl, rfl⟩
      cases hanswer.symm.trans hadmitted
      have := (hallowed _ _ rfl).count
      omega
  · rintro ⟨htrips, hcounted⟩
    cases hanswer : Decoder.decode ⟨limits⟩ surface payload source with
    | none => exact absurd (decode_eq_none.mp hanswer) htrips
    | some outcome =>
      refine ⟨outcome, hanswer, ?_⟩
      rintro plan provenance rfl
      obtain ⟨hadmissible, rfl, -⟩ := decode_admitted.mp hanswer
      refine hadmissible.allowed ?_ provenance
      by_contra hmany
      have hsome : nonBlank payload ≠ [] := by
        intro hnone
        rw [hnone] at hmany
        exact hmany (Nat.zero_le _)
      have hcharged := hadmissible.count hsome
      have hlast : limits.maxFields.toNat < 2 ^ 32 := UInt32.toNat_lt _
      exact hcounted ⟨by omega, by omega, hadmissible⟩

def defaultLimits : PlanLimits := ⟨64 * 1024, 8 * 1024, 8⟩

def searching : Surface where
  tenant := utf8 "acme"
  operations := .insert .empty (utf8 "search") ⟨utf8 "search", [utf8 "net"]⟩
  held := [utf8 "net"]

omit [PayloadHash] in
/-- A payload that asks for an operation it names by one space stops the decoder. -/
theorem spaced_value_stops_the_decoder :
    ¬@OnlyAllowed ⟨Digest.fromBytes⟩ defaultLimits searching (utf8 "op= ") .model := by
  rintro ⟨outcome, hanswer, -⟩
  have hstray : Stray defaultLimits searching 0 (linesOf (utf8 "op= ")) := by
    refine ⟨[], utf8 "op= ", [], by decide +kernel, fun earlier hmem => (by cases hmem),
      by decide +kernel, by decide +kernel, utf8 "op", [space],
      ⟨by decide +kernel, by decide +kernel, by decide⟩,
      .inr ⟨by decide +kernel, by decide +kernel⟩⟩
  rw [(@decode_eq_none _ _ _ ⟨Digest.fromBytes⟩ _).mpr ⟨by decide +kernel, hstray⟩] at hanswer
  cases hanswer

end LogicalWorks.Proposal
