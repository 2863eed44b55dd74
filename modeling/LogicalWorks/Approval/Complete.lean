import LogicalWorks.Approval.Pending

/-! When the pending listing is complete: the bound is set before the deadline and the decisions are
looked at, so what was decided can crowd out what waits. -/
namespace LogicalWorks.Approval
open Journal LogicalWorks.Task

section Complete

variable (archive : Archive)

structure Waits (index : Store.Index) (tenant : String) (now : Nat) (run : RunId) (key : String)
    (held : Store.Held) (pending : PendingRecord) : Prop where
  owned : Store.tenantOf index.runs run = some tenant
  step : Store.stepOf index.runs run key = some held
  parked : classifyRecord archive held.bytes = .pending pending
  ahead : now < pending.expiresAt
  undecided : Store.stepOf index.runs run
    (hexOf (decisionKeyFor archive tenant pending.path).bytes) = none

def waiting (index : Store.Index) (tenant : String) (now : Nat) : Set (RunId × String) :=
  {step | ∃ held pending, Waits archive index tenant now step.1 step.2 held pending}

structure Complete (host : Host) (store : PlainStore) (limit now : Nat)
    (entries : List PendingApproval) : Prop where
  length : entries.length =
    min (min limit host.maxPending) (waiting archive store.index host.tenant now).ncard
  distinct : (entries.map PendingApproval.id).Nodup
  waits : ∀ entry ∈ entries, ∃ key held pending,
    Waits archive store.index host.tenant now entry.run (hexOf key.bytes) held pending ∧
      entry = ⟨(ApprovalId.mk entry.run key).toText, host.tenant, entry.run, held.path,
        pending.name, pending.digest, pending.payload.length, pending.expiresAt⟩
  accepted : ∀ entry ∈ entries, ∀ by_ verdict, Accepts archive host.tenant
    (lookupOf store.index host.tenant) now entry.id ⟨by_, verdict, entry.digest⟩
  same : ∀ (other : Host) (copy : PlainStore), other.tenant = host.tenant →
    min limit other.maxPending = min limit host.maxPending →
    SameRecords store.index copy.index → other.pending archive copy limit now = .ok entries

/-- Either every parked approval within the bound is live, or none beyond it is. -/
def Unobstructed (host : Host) (store : PlainStore) (limit now : Nat) : Prop :=
  let parked := parkedOf archive store.index host.tenant
  let cap := min limit host.maxPending
  (∀ row ∈ parked.take cap, live archive store.index host.tenant now row = true) ∨
    ∀ row ∈ parked.drop cap, live archive store.index host.tenant now row = false

theorem PlainStore.wellKept (store : PlainStore) : WellKept store.index.runs := by
  rw [store.runs_eq]
  exact wellKept_runsOf store.committed

theorem live_iff {index : Store.Index} {tenant : String} {now : Nat} {row : Scanned} :
    live archive index tenant now row = true ↔ ∃ pending,
      classifyRecord archive row.bytes = .pending pending ∧ now < pending.expiresAt ∧
        Store.stepOf index.runs row.run
          (hexOf (decisionKeyFor archive tenant pending.path).bytes) = none := by
  unfold live
  cases hclass : classifyRecord archive row.bytes with
  | pending pending => simp
  | decision decision => simp
  | other => simp

theorem mem_live_iff {index : Store.Index} {tenant : String} {now : Nat}
    (hkept : WellKept index.runs) {row : Scanned} :
    row ∈ (parkedOf archive index tenant).filter (live archive index tenant now) ↔
      ∃ pending, Waits archive index tenant now row.run row.key ⟨row.path, row.bytes⟩ pending := by
  rw [List.mem_filter, mem_parkedOf archive hkept, live_iff]
  constructor
  · rintro ⟨⟨htenant, hstep, -⟩, pending, hclass, hahead, hfree⟩
    exact ⟨pending, htenant, hstep, hclass, hahead, hfree⟩
  · rintro ⟨pending, hwaits⟩
    exact ⟨⟨hwaits.owned, hwaits.step, pending, hwaits.parked⟩, pending, hwaits.parked,
      hwaits.ahead, hwaits.undecided⟩

theorem length_live {index : Store.Index} (tenant : String) (now : Nat)
    (hkept : WellKept index.runs) :
    ((parkedOf archive index tenant).filter (live archive index tenant now)).length =
      (waiting archive index tenant now).ncard := by
  have hnodup : (((parkedOf archive index tenant).filter (live archive index tenant now)).map
      fun row => (row.run, row.key)).Nodup :=
    (nodup_parkedOf archive tenant hkept).sublist (List.filter_sublist.map _)
  have hset : waiting archive index tenant now =
      ↑(((parkedOf archive index tenant).filter (live archive index tenant now)).map
        fun row => (row.run, row.key)).toFinset := by
    ext ⟨run, key⟩
    rw [Finset.mem_coe, List.mem_toFinset, List.mem_map]
    constructor
    · rintro ⟨held, pending, hwaits⟩
      exact ⟨⟨run, key, held.path, held.bytes⟩, (mem_live_iff archive hkept).mpr ⟨pending, hwaits⟩,
        rfl⟩
    · rintro ⟨row, hrow, hat⟩
      obtain ⟨pending, hwaits⟩ := (mem_live_iff archive hkept).mp hrow
      cases hat
      exact ⟨_, pending, hwaits⟩
  rw [hset, Set.ncard_coe_finset, List.toFinset_card_of_nodup hnodup, List.length_map]

/-- The rows a listing keeps under its bound, in the order it shows them. -/
def kept (host : Host) (store : PlainStore) (limit now : Nat) : List Scanned :=
  (pendingScan archive store.index host.tenant (min limit host.maxPending)).filter
    (live archive store.index host.tenant now)

theorem mem_pendingScan {index : Store.Index} {tenant : String} {limit : Nat} {row : Scanned}
    (h : row ∈ pendingScan archive index tenant limit) : row ∈ parkedOf archive index tenant := by
  rw [pendingScan_eq, List.mem_insertionSort] at h
  exact List.mem_of_mem_take h

theorem mem_kept {host : Host} {store : PlainStore} {limit now : Nat} {row : Scanned}
    (h : row ∈ kept archive host store limit now) : ∃ pending,
      Waits archive store.index host.tenant now row.run row.key ⟨row.path, row.bytes⟩ pending := by
  obtain ⟨hscan, hlive⟩ := List.mem_filter.mp h
  exact (mem_live_iff archive store.wellKept).mp
    (List.mem_filter.mpr ⟨mem_pendingScan archive hscan, hlive⟩)

theorem shown_of_mem_kept {host : Host} {store : PlainStore} {limit now : Nat} {row : Scanned}
    (h : row ∈ kept archive host store limit now) : ∃ key pending,
      Waits archive store.index host.tenant now row.run (hexOf key.bytes) ⟨row.path, row.bytes⟩
        pending ∧ row.key = hexOf key.bytes ∧
      shown archive host.tenant row = some ⟨(ApprovalId.mk row.run key).toText, host.tenant,
        row.run, row.path, pending.name, pending.digest, pending.payload.length,
        pending.expiresAt⟩ := by
  obtain ⟨pending, hwaits⟩ := mem_kept archive h
  obtain ⟨run, hget, hheld⟩ := Option.bind_eq_some_iff.mp hwaits.step
  obtain ⟨key, hkey⟩ := store.wellKept.key row.run run row.key _ hget hheld
  refine ⟨key, pending, hkey ▸ hwaits, hkey, ?_⟩
  have hclass : classifyRecord archive row.bytes = .pending pending := hwaits.parked
  unfold shown
  rw [hclass, hkey, digestFromHex_hexOf]
  rfl

theorem pending_eq (host : Host) (store : PlainStore) (limit now : Nat) :
    host.pending archive store limit now =
      .ok ((kept archive host store limit now).filterMap (shown archive host.tenant)) := by
  have hlength : (pendingScan archive store.index host.tenant
      (min limit host.maxPending)).length ≤ min limit host.maxPending := by
    rw [pendingScan_eq, List.length_insertionSort]
    exact List.length_take_le _ _
  unfold Host.pending kept
  rw [pendingFor_eq archive store.wellKept _ now _ [] (fun row => mem_pendingScan archive)
    (by rw [List.length_nil, Nat.zero_add]; exact hlength), List.nil_append]

theorem length_kept (host : Host) (store : PlainStore) (limit now : Nat) :
    ((kept archive host store limit now).filterMap (shown archive host.tenant)).length =
      (((parkedOf archive store.index host.tenant).take (min limit host.maxPending)).filter
        (live archive store.index host.tenant now)).length := by
  have hall : ((kept archive host store limit now).filterMap (shown archive host.tenant)).length =
      (kept archive host store limit now).length := by
    rw [List.filterMap_length_eq_length]
    intro row hrow
    obtain ⟨key, pending, -, -, hshown⟩ := shown_of_mem_kept archive hrow
    rw [hshown, Option.isSome_some]
  rw [hall]
  unfold kept
  rw [pendingScan_eq]
  exact ((List.perm_insertionSort _ _).filter _).length_eq

theorem nodup_ids (host : Host) (store : PlainStore) (limit now : Nat) :
    (((kept archive host store limit now).filterMap (shown archive host.tenant)).map
      PendingApproval.id).Nodup := by
  have hrows : (kept archive host store limit now).Pairwise fun one other =>
      (one.run, one.key) ≠ (other.run, other.key) := by
    have hscan : ((pendingScan archive store.index host.tenant (min limit host.maxPending)).map
        fun row => (row.run, row.key)).Nodup := by
      rw [pendingScan_eq, ((List.perm_insertionSort _ _).map _).nodup_iff]
      exact (nodup_parkedOf archive host.tenant store.wellKept).sublist
        ((List.take_sublist _ _).map _)
    exact (List.pairwise_map.mp hscan).sublist List.filter_sublist
  have hbounds : ∀ row ∈ kept archive host store limit now, 0 < row.run ∧ row.run < 2 ^ 128 := by
    intro row hrow
    obtain ⟨pending, hwaits⟩ := mem_kept archive hrow
    obtain ⟨run, hget, -⟩ := Option.map_eq_some_iff.mp hwaits.owned
    exact store.wellKept.run row.run run hget
  unfold List.Nodup
  rw [List.pairwise_map, List.pairwise_filterMap]
  refine hrows.imp_of_mem ?_
  intro one other hone hother hne entry hentry later hlater hsame
  obtain ⟨key, pending, -, hkey, hshown⟩ := shown_of_mem_kept archive hone
  obtain ⟨otherKey, otherPending, -, hotherKey, hotherShown⟩ := shown_of_mem_kept archive hother
  rw [hshown, Option.some.injEq] at hentry
  rw [hotherShown, Option.some.injEq] at hlater
  have htext : (ApprovalId.mk one.run key).toText = (ApprovalId.mk other.run otherKey).toText := by
    rw [← hentry, ← hlater] at hsame
    exact hsame
  have hread : ApprovalId.parse (ApprovalId.mk one.run key).toText = some ⟨one.run, key⟩ :=
    ApprovalId.parse_toText (hbounds one hone).1 (hbounds one hone).2
  have hotherRead : ApprovalId.parse (ApprovalId.mk other.run otherKey).toText =
      some ⟨other.run, otherKey⟩ :=
    ApprovalId.parse_toText (hbounds other hother).1 (hbounds other hother).2
  rw [htext, hotherRead] at hread
  injection hread with hid
  injection hid with hrun hdigest
  exact hne (by rw [hrun, hkey, hotherKey, hdigest])

theorem accepts_shown {host : Host} {store : PlainStore} {now : Nat} {run : RunId} {key : Digest}
    {held : Store.Held} {pending : PendingRecord}
    (h : Waits archive store.index host.tenant now run (hexOf key.bytes) held pending)
    (by_ : String) (verdict : ApprovalVerdict) :
    Accepts archive host.tenant (lookupOf store.index host.tenant) now
      (ApprovalId.mk run key).toText ⟨by_, verdict, pending.digest⟩ := by
  obtain ⟨kept, hget, -⟩ := Option.map_eq_some_iff.mp h.owned
  obtain ⟨hpos, hlt⟩ := store.wellKept.run run kept hget
  refine ⟨⟨run, key⟩, pending, ApprovalId.parse_toText hpos hlt, ?_, ?_, ?_⟩
  · rw [lookupOf_eq _ h.owned, h.step]
    simp [readPending, h.parked]
  · rw [lookupOf_eq _ h.owned, h.undecided]
    rfl
  · unfold judge
    rw [if_neg (Nat.not_le.mpr h.ahead), if_neg (by simp)]

theorem shown_waits (host : Host) (store : PlainStore) (limit now : Nat) :
    ∀ entry ∈ (kept archive host store limit now).filterMap (shown archive host.tenant),
      ∃ key held pending,
        Waits archive store.index host.tenant now entry.run (hexOf key.bytes) held pending ∧
          entry = ⟨(ApprovalId.mk entry.run key).toText, host.tenant, entry.run, held.path,
            pending.name, pending.digest, pending.payload.length, pending.expiresAt⟩ := by
  intro entry hentry
  obtain ⟨row, hrow, hshown⟩ := List.mem_filterMap.mp hentry
  obtain ⟨key, pending, hwaits, -, heq⟩ := shown_of_mem_kept archive hrow
  rw [heq, Option.some.injEq] at hshown
  cases hshown
  exact ⟨key, _, pending, hwaits, rfl⟩

theorem pending_congr {host other : Host} {store copy : PlainStore} {limit now : Nat}
    (htenant : other.tenant = host.tenant)
    (hcap : min limit other.maxPending = min limit host.maxPending)
    (h : SameRecords store.index copy.index) :
    other.pending archive copy limit now = host.pending archive store limit now := by
  have hdecided : decidedIn archive copy.index host.tenant =
      decidedIn archive store.index host.tenant := by
    unfold decidedIn
    rw [lookupOf_congr h host.tenant]
  unfold Host.pending
  dsimp only
  rw [htenant, hcap, hdecided, pendingScan_eq, pendingScan_eq,
    parkedOf_congr archive store.wellKept copy.wellKept h host.tenant]

/-- A listing is complete just where nothing decided or lapsed crowds out what waits. -/
theorem listing_complete (host : Host) (store : PlainStore) (limit now : Nat) :
    (∃ entries, host.pending archive store limit now = .ok entries ∧
      Complete archive host store limit now entries) ↔
        Unobstructed archive host store limit now := by
  have hbound := Selection.length_filter_take_iff (live archive store.index host.tenant now)
    (min limit host.maxPending) (parkedOf archive store.index host.tenant)
  rw [length_live archive host.tenant now store.wellKept] at hbound
  constructor
  · rintro ⟨entries, hpending, hcomplete⟩
    rw [pending_eq, Except.ok.injEq] at hpending
    have hlength := hcomplete.length
    rw [← hpending, length_kept] at hlength
    exact hbound.mp hlength
  · intro hclear
    refine ⟨_, pending_eq archive host store limit now, ?_⟩
    constructor
    case length =>
      rw [length_kept]
      exact hbound.mpr hclear
    case distinct => exact nodup_ids archive host store limit now
    case waits => exact shown_waits archive host store limit now
    case accepted =>
      intro entry hentry by_ verdict
      obtain ⟨key, held, pending, hwaits, heq⟩ :=
        shown_waits archive host store limit now entry hentry
      rw [heq]
      exact accepts_shown archive hwaits by_ verdict
    case same =>
      intro other copy htenant hcap hsame
      rw [pending_congr archive htenant hcap hsame, pending_eq]

end Complete

section Crowded

def lapsed : PendingRecord := ⟨"acme", 1, "a", "ship", Digest.fromBytes [], [], 0, 10⟩

def standing : PendingRecord := ⟨"acme", 1, "b", "ship", Digest.fromBytes [], [], 0, 100⟩

def twoRecords : Archive where
  hash bytes := Digest.fromBytes bytes.reverse
  toRecord record :=
    if record = .pending lapsed then some [1]
    else if record = .pending standing then some [2] else none
  fromRecord bytes :=
    if bytes = [1] then some (.pending lapsed)
    else if bytes = [2] then some (.pending standing) else none
  payloadToRecord _ := none

def parkedAs (pending : PendingRecord) (bytes : Bytes) : Committed where
  staged := {
    record := ⟨1, (stepKey twoRecords "acme" pending.path).bytes, "acme", pending.path,
      ⟨"flow", 1, [], 0, "rkyv"⟩, bytes⟩
    key := stepKey twoRecords "acme" pending.path
    record_key := rfl }
  run_pos := Nat.one_pos
  run_lt := Nat.one_lt_two_pow (by omega)

def crowded : PlainStore where
  index := ⟨runsOf [parkedAs lapsed [1], parkedAs standing [2]], 0, Digest.fromBytes [], .empty,
    .empty⟩
  committed := [parkedAs lapsed [1], parkedAs standing [2]]
  runs_eq := rfl

/-- Asked for one entry, the listing is empty although an approval waits. -/
theorem lapsed_crowds_out_standing :
    ¬ ∃ entries, (Host.mk "acme" 64).pending twoRecords crowded 1 50 = .ok entries ∧
      Complete twoRecords ⟨"acme", 64⟩ crowded 1 50 entries := by
  rintro ⟨entries, hpending, hcomplete⟩
  rw [pending_eq, Except.ok.injEq] at hpending
  have hlength := hcomplete.length
  rw [← hpending, length_kept, ← length_live twoRecords "acme" 50 crowded.wellKept] at hlength
  have hshown : ((parkedOf twoRecords crowded.index "acme").take 1).filter
      (live twoRecords crowded.index "acme" 50) = [] := by decide +kernel
  have hwaiting : ((parkedOf twoRecords crowded.index "acme").filter
      (live twoRecords crowded.index "acme" 50)).length = 1 := by decide +kernel
  dsimp only at hlength
  rw [hwaiting] at hlength
  change (((parkedOf twoRecords crowded.index "acme").take 1).filter
      (live twoRecords crowded.index "acme" 50)).length = 1 at hlength
  rw [hshown] at hlength
  cases hlength

end Crowded

end LogicalWorks.Approval
