import LogicalWorks.Approval.Listing
import LogicalWorks.Lib.Ordered
import Mathlib.Data.Set.Card

/-! What the pending listing shows of the approvals that wait for a decision. -/
namespace LogicalWorks.Approval
open Journal LogicalWorks.Task

section Rows

variable (archive : Archive)

def rowsOf (index : Store.Index) (run : RunId) : List Scanned :=
  match index.runs.get run with
  | none => []
  | some kept => (sortedKeys kept).filterMap (scanned? archive kept run)

def parkedOf (index : Store.Index) (tenant : String) : List Scanned :=
  (runsOfTenant index tenant).flatMap (rowsOf archive index)

theorem scanKeys_eq (limit : Nat) (kept : Store.RunIndex) (run : RunId) (keys : List String)
    (out : List Scanned) (h : out.length ≤ limit) :
    scanKeys archive limit kept run out keys =
      (out ++ keys.filterMap (scanned? archive kept run)).take limit := by
  induction keys generalizing out with
  | nil => rw [scanKeys, List.filterMap_nil, List.append_nil, List.take_of_length_le h]
  | cons key rest ih =>
    rw [scanKeys]
    by_cases hfull : limit ≤ out.length
    · rw [if_pos hfull, List.take_append_of_le_length hfull, List.take_of_length_le h]
    · rw [if_neg hfull]
      cases hrow : scanned? archive kept run key with
      | none =>
        rw [Option.toList_none, List.append_nil, ih out h, List.filterMap_cons_none hrow]
      | some row =>
        rw [Option.toList_some, ih (out ++ [row]) (by simpa using Nat.not_le.mp hfull),
          List.filterMap_cons_some hrow, List.append_assoc, List.singleton_append]

theorem scanRuns_eq (limit : Nat) (index : Store.Index) (runs : List RunId) (out : List Scanned)
    (h : out.length ≤ limit) :
    scanRuns archive limit index out runs =
      (out ++ runs.flatMap (rowsOf archive index)).take limit := by
  induction runs generalizing out with
  | nil => rw [scanRuns, List.flatMap_nil, List.append_nil, List.take_of_length_le h]
  | cons run rest ih =>
    rw [scanRuns, List.flatMap_cons]
    cases hkept : index.runs.get run with
    | none =>
      have hrows : rowsOf archive index run = [] := by
        unfold rowsOf
        rw [hkept]
      rw [hrows, List.nil_append]
      exact ih out h
    | some kept =>
      have hrows : rowsOf archive index run =
          (sortedKeys kept).filterMap (scanned? archive kept run) := by
        unfold rowsOf
        rw [hkept]
      dsimp only
      rw [hrows, scanKeys_eq archive limit kept run _ out h]
      generalize (sortedKeys kept).filterMap (scanned? archive kept run) = rows
      have hshort : ((out ++ rows).take limit).length ≤ limit := List.length_take_le _ _
      rw [← List.append_assoc]
      split
      · rename_i hfull
        have hlong : limit ≤ (out ++ rows).length := by
          rw [List.length_take] at hfull
          omega
        rw [List.take_append_of_le_length hlong]
      · rename_i hroom
        have hall : (out ++ rows).take limit = out ++ rows := by
          apply List.take_of_length_le
          rw [List.length_take] at hroom
          omega
        rw [hall] at hshort ⊢
        exact ih _ hshort

theorem pendingScan_eq (index : Store.Index) (tenant : String) (limit : Nat) :
    pendingScan archive index tenant limit =
      ((parkedOf archive index tenant).take limit).insertionSort fun left right =>
        left.key < right.key ∨ left.key = right.key ∧ left.path ≤ right.path := by
  unfold pendingScan parkedOf
  rw [scanRuns_eq archive limit index _ [] (Nat.zero_le limit), List.nil_append]

theorem runsOfTenant_eq (index : Store.Index) (tenant : String) : runsOfTenant index tenant =
    ((index.runs.rows.filter fun pair => pair.2.tenant = tenant).map Prod.fst).insertionSort
      fun left right => runToHex left ≤ runToHex right := by
  unfold runsOfTenant
  congr 1
  induction index.runs.rows with
  | nil => rfl
  | cons pair rest ih =>
    by_cases htenant : pair.2.tenant = tenant
    · simp [List.filterMap_cons, List.filter_cons, htenant, ih]
    · simp [List.filterMap_cons, List.filter_cons, htenant, ih]

theorem mem_runsOfTenant {index : Store.Index} {tenant : String} {run : RunId}
    (hkept : WellKept index.runs) :
    run ∈ runsOfTenant index tenant ↔ Store.tenantOf index.runs run = some tenant := by
  unfold Store.tenantOf
  rw [runsOfTenant_eq, List.mem_insertionSort, List.mem_map, Option.map_eq_some_iff]
  constructor
  · rintro ⟨pair, hpair, rfl⟩
    obtain ⟨hrow, htenant⟩ := List.mem_filter.mp hpair
    exact ⟨pair.2, (Table.mem_rows_iff hkept.runs_nodup).mp hrow, by simpa using htenant⟩
  · rintro ⟨kept, hget, htenant⟩
    have hrow : (run, kept) ∈ index.runs.rows := (Table.mem_rows_iff hkept.runs_nodup).mpr hget
    exact ⟨(run, kept), List.mem_filter.mpr ⟨hrow, by simpa using htenant⟩, rfl⟩

theorem nodup_runsOfTenant {index : Store.Index} (tenant : String) (hkept : WellKept index.runs) :
    (runsOfTenant index tenant).Nodup := by
  rw [runsOfTenant_eq, (List.perm_insertionSort _ _).nodup_iff]
  exact hkept.runs_nodup.sublist (List.filter_sublist.map Prod.fst)

theorem mem_sortedKeys {kept : Store.RunIndex} {key : String} :
    key ∈ sortedKeys kept ↔ (kept.steps.get key).isSome = true := by
  unfold sortedKeys
  rw [List.mem_insertionSort, Table.mem_keys]

theorem nodup_sortedKeys {kept : Store.RunIndex} (h : (kept.steps.rows.map Prod.fst).Nodup) :
    (sortedKeys kept).Nodup :=
  (List.perm_insertionSort _ _).nodup_iff.mpr h

theorem scanned?_eq_some {kept : Store.RunIndex} {run : RunId} {key : String} {row : Scanned} :
    scanned? archive kept run key = some row ↔
      ∃ held pending, kept.steps.get key = some held ∧
        classifyRecord archive held.bytes = .pending pending ∧
        row = ⟨run, key, held.path, held.bytes⟩ := by
  unfold scanned?
  cases hheld : kept.steps.get key with
  | none => simp
  | some held =>
    cases hclass : classifyRecord archive held.bytes with
    | pending pending => simp [hclass, eq_comm]
    | decision decision => simp [hclass]
    | other => simp [hclass]

theorem mem_parkedOf {index : Store.Index} {tenant : String} (hkept : WellKept index.runs)
    {row : Scanned} : row ∈ parkedOf archive index tenant ↔
      Store.tenantOf index.runs row.run = some tenant ∧
        Store.stepOf index.runs row.run row.key = some ⟨row.path, row.bytes⟩ ∧
        ∃ pending, classifyRecord archive row.bytes = .pending pending := by
  unfold parkedOf rowsOf Store.stepOf
  rw [List.mem_flatMap]
  constructor
  · rintro ⟨run, hrun, hrow⟩
    rw [mem_runsOfTenant hkept] at hrun
    cases hget : index.runs.get run with
    | none =>
      rw [hget] at hrow
      cases hrow
    | some kept =>
      rw [hget] at hrow
      obtain ⟨key, -, hscanned⟩ := List.mem_filterMap.mp hrow
      obtain ⟨held, pending, hheld, hclass, rfl⟩ := (scanned?_eq_some archive).mp hscanned
      refine ⟨hrun, ?_, pending, hclass⟩
      dsimp only
      rw [hget, Option.bind_some, hheld]
  · rintro ⟨htenant, hstep, pending, hclass⟩
    refine ⟨row.run, (mem_runsOfTenant hkept).mpr htenant, ?_⟩
    obtain ⟨kept, hget, hheld⟩ := Option.bind_eq_some_iff.mp hstep
    rw [hget]
    refine List.mem_filterMap.mpr ⟨row.key, ?_, ?_⟩
    · rw [mem_sortedKeys, hheld, Option.isSome_some]
    · exact (scanned?_eq_some archive).mpr ⟨_, pending, hheld, hclass, rfl⟩

theorem nodup_parkedOf {index : Store.Index} (tenant : String) (hkept : WellKept index.runs) :
    ((parkedOf archive index tenant).map fun row => (row.run, row.key)).Nodup := by
  have hrun : ∀ {run : RunId} {row : Scanned}, row ∈ rowsOf archive index run → row.run = run := by
    intro run row hrow
    unfold rowsOf at hrow
    cases hget : index.runs.get run with
    | none =>
      rw [hget] at hrow
      cases hrow
    | some kept =>
      rw [hget] at hrow
      obtain ⟨key, -, hscanned⟩ := List.mem_filterMap.mp hrow
      obtain ⟨held, pending, -, -, rfl⟩ := (scanned?_eq_some archive).mp hscanned
      rfl
  unfold parkedOf List.Nodup
  rw [List.pairwise_map, List.pairwise_flatMap]
  constructor
  · intro run hin
    unfold rowsOf
    cases hget : index.runs.get run with
    | none => exact List.Pairwise.nil
    | some kept =>
      rw [List.pairwise_filterMap]
      refine (nodup_sortedKeys (hkept.steps_nodup run kept hget)).imp ?_
      intro one other hne row hrow later hlater hsame
      obtain ⟨_, _, -, -, rfl⟩ := (scanned?_eq_some archive).mp hrow
      obtain ⟨_, _, -, -, rfl⟩ := (scanned?_eq_some archive).mp hlater
      exact hne (Prod.ext_iff.mp hsame).2
  · refine (nodup_runsOfTenant tenant hkept).imp ?_
    intro one other hne row hrow later hlater hsame
    have hsameRun := (Prod.ext_iff.mp hsame).1
    rw [hrun hrow, hrun hlater] at hsameRun
    exact hne hsameRun

end Rows

section Same

variable (archive : Archive)

def SameRecords (left right : Store.Index) : Prop :=
  ∀ run, Store.tenantOf left.runs run = Store.tenantOf right.runs run ∧
    ∀ key, Store.stepOf left.runs run key = Store.stepOf right.runs run key

theorem runsOfTenant_congr {left right : Store.Index} (hleft : WellKept left.runs)
    (hright : WellKept right.runs) (h : SameRecords left right) (tenant : String) :
    runsOfTenant left tenant = runsOfTenant right tenant := by
  have hmem : ∀ {index : Store.Index}, WellKept index.runs → ∀ run,
      run ∈ (index.runs.rows.filter fun pair => pair.2.tenant = tenant).map Prod.fst ↔
        Store.tenantOf index.runs run = some tenant := by
    intro index hkept run
    rw [← mem_runsOfTenant hkept, runsOfTenant_eq, List.mem_insertionSort]
  have hbounds : ∀ run, Store.tenantOf left.runs run = some tenant → 0 < run ∧ run < 2 ^ 128 := by
    intro run hrun
    obtain ⟨kept, hget, -⟩ := Option.map_eq_some_iff.mp hrun
    exact hleft.run run kept hget
  rw [runsOfTenant_eq, runsOfTenant_eq]
  refine Selection.insertionSort_eq_of_mem_iff _ ?_ ?_
    (hleft.runs_nodup.sublist (List.filter_sublist.map Prod.fst))
    (hright.runs_nodup.sublist (List.filter_sublist.map Prod.fst)) ?_ ?_
  · exact fun one other => le_total (runToHex one) (runToHex other)
  · exact fun one other third => le_trans
  · intro run
    rw [hmem hleft, hmem hright, (h run).1]
  · intro one hone other hother hle hge
    exact runToHex_inj (hbounds one ((hmem hleft one).mp hone))
      (hbounds other ((hmem hleft other).mp hother)) (le_antisymm hle hge)

theorem sortedKeys_congr {left right : Store.RunIndex}
    (hleft : (left.steps.rows.map Prod.fst).Nodup) (hright : (right.steps.rows.map Prod.fst).Nodup)
    (h : ∀ key, left.steps.get key = right.steps.get key) : sortedKeys left = sortedKeys right := by
  unfold sortedKeys
  refine Selection.insertionSort_eq_of_mem_iff _ le_total (fun _ _ _ => le_trans) hleft hright ?_
    fun _ _ _ _ => le_antisymm
  intro key
  rw [Table.mem_keys, Table.mem_keys, h key]

theorem parkedOf_congr {left right : Store.Index} (hleft : WellKept left.runs)
    (hright : WellKept right.runs) (h : SameRecords left right) (tenant : String) :
    parkedOf archive left tenant = parkedOf archive right tenant := by
  have hrows : rowsOf archive left = rowsOf archive right := by
    funext run
    obtain ⟨htenant, hsteps⟩ := h run
    unfold Store.tenantOf at htenant
    unfold Store.stepOf at hsteps
    unfold rowsOf
    cases hone : left.runs.get run with
    | none =>
      rw [hone, Option.map_none, eq_comm, Option.map_eq_none_iff] at htenant
      rw [htenant]
    | some one =>
      rw [hone, Option.map_some, eq_comm, Option.map_eq_some_iff] at htenant
      obtain ⟨other, hother, -⟩ := htenant
      simp only [hone, hother, Option.bind_some] at hsteps
      have hkeys : sortedKeys one = sortedKeys other :=
        sortedKeys_congr (hleft.steps_nodup run one hone) (hright.steps_nodup run other hother)
          hsteps
      have hscanned : scanned? archive one run = scanned? archive other run := by
        funext key
        unfold scanned?
        rw [hsteps key]
      rw [hother]
      dsimp only
      rw [hkeys, hscanned]
  unfold parkedOf
  rw [runsOfTenant_congr hleft hright h, hrows]

theorem lookupOf_congr {left right : Store.Index} (h : SameRecords left right) (tenant : String) :
    lookupOf left tenant = lookupOf right tenant := by
  funext run key
  obtain ⟨htenant, hsteps⟩ := h run
  unfold Store.tenantOf at htenant
  unfold Store.stepOf at hsteps
  unfold lookupOf Store.lookup
  cases hone : left.runs.get run with
  | none =>
    rw [hone, Option.map_none, eq_comm, Option.map_eq_none_iff] at htenant
    rw [htenant]
  | some one =>
    rw [hone, Option.map_some, eq_comm, Option.map_eq_some_iff] at htenant
    obtain ⟨other, hother, hsame⟩ := htenant
    simp only [hone, hother, Option.bind_some] at hsteps
    rw [hother]
    dsimp only
    rw [hsame, hsteps]

end Same

section Complete

variable (archive : Archive)

/-- Whether a parked approval's deadline is ahead and its decision slot free. -/
def live (index : Store.Index) (tenant : String) (now : Nat) (row : Scanned) : Bool :=
  match classifyRecord archive row.bytes with
  | .pending pending =>
    decide (now < pending.expiresAt) && (Store.stepOf index.runs row.run
      (hexOf (decisionKeyFor archive tenant pending.path).bytes)).isNone
  | .decision _ | .other => false

def shown (tenant : String) (row : Scanned) : Option PendingApproval :=
  match classifyRecord archive row.bytes with
  | .pending pending => (digestFromHex row.key.toList).map fun key =>
    ⟨(ApprovalId.mk row.run key).toText, tenant, row.run, row.path, pending.name, pending.digest,
      pending.payload.length, pending.expiresAt⟩
  | .decision _ | .other => none

theorem lookupOf_eq {index : Store.Index} {tenant : String} {run : RunId} (key : Digest)
    (h : Store.tenantOf index.runs run = some tenant) : lookupOf index tenant run key =
      .ok ((Store.stepOf index.runs run (hexOf key.bytes)).map Store.Held.bytes) := by
  obtain ⟨kept, hget, htenant⟩ := Option.map_eq_some_iff.mp h
  unfold lookupOf Store.lookup Store.stepOf
  rw [hget]
  dsimp only
  rw [if_neg (not_not.mpr htenant), Option.bind_some]
  rfl

theorem pendingFor_eq {index : Store.Index} {tenant : String} (hkept : WellKept index.runs)
    (limit now : Nat) (rows : List Scanned) (out : List PendingApproval)
    (hrows : ∀ row ∈ rows, row ∈ parkedOf archive index tenant)
    (h : out.length + rows.length ≤ limit) :
    pendingFor archive (decidedIn archive index tenant) tenant limit now out rows =
      .ok (out ++ (rows.filter (live archive index tenant now)).filterMap
        (shown archive tenant)) := by
  induction rows generalizing out with
  | nil => rw [pendingFor, List.filter_nil, List.filterMap_nil, List.append_nil]
  | cons row rest ih =>
    obtain ⟨htenant, hstep, pending, hclass⟩ :=
      (mem_parkedOf archive hkept).mp (hrows row List.mem_cons_self)
    have hlater := fun later hin => hrows later (List.mem_cons_of_mem row hin)
    have hdecided : decidedIn archive index tenant row.run pending.path =
        .ok (Store.stepOf index.runs row.run
          (hexOf (decisionKeyFor archive tenant pending.path).bytes)).isSome := by
      unfold decidedIn
      rw [lookupOf_eq _ htenant]
      simp [Except.map]
    rw [List.length_cons] at h
    rw [pendingFor, if_neg (by omega), hclass]
    dsimp only
    by_cases hlapsed : pending.expiresAt ≤ now
    · have hlive : live archive index tenant now row = false := by
        simp [live, hclass, hlapsed]
      rw [if_pos hlapsed, ih out hlater (by omega), List.filter_cons_of_neg (by simp [hlive])]
    · rw [if_neg hlapsed, hdecided]
      cases hslot : Store.stepOf index.runs row.run
        (hexOf (decisionKeyFor archive tenant pending.path).bytes) with
      | some held =>
        have hlive : live archive index tenant now row = false := by
          simp [live, hclass, hslot]
        rw [Option.isSome_some]
        dsimp only
        rw [ih out hlater (by omega), List.filter_cons_of_neg (by simp [hlive])]
      | none =>
        have hlive : live archive index tenant now row = true := by
          simp [live, hclass, hslot, Nat.not_le.mp hlapsed]
        obtain ⟨kept, hget, hheld⟩ := Option.bind_eq_some_iff.mp hstep
        obtain ⟨key, hkey⟩ := hkept.key row.run kept row.key _ hget hheld
        have hread : digestFromHex row.key.toList = some key := by
          rw [hkey, digestFromHex_hexOf]
        rw [Option.isSome_none]
        dsimp only
        rw [hread]
        dsimp only
        rw [ih _ hlater (by rw [List.length_append, List.length_singleton]; omega),
          List.filter_cons_of_pos hlive, List.filterMap_cons]
        simp [shown, hclass, hread]

end Complete

end LogicalWorks.Approval
