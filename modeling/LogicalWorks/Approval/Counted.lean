import LogicalWorks.Approval.Ceiling
import LogicalWorks.Lib.Run

/-! The count of undecided approvals, and when it stays under the ceiling. -/
namespace LogicalWorks.Approval
open Journal LogicalWorks.Task

section Undecided

variable (archive : Archive)

def Parked (runs : Table RunId Store.RunIndex) (run : RunId) (key : String)
    (pending : PendingRecord) : Prop :=
  ∃ held, Store.stepOf runs run key = some held ∧
    classifyRecord archive held.bytes = .pending pending

def Answered (runs : Table RunId Store.RunIndex) (run : RunId) (key : String) : Prop :=
  ∃ held decision, Store.stepOf runs run key = some held ∧
    classifyRecord archive held.bytes = .decision decision

def undecided (runs : Table RunId Store.RunIndex) (tenant : String) : Set (RunId × String) :=
  {step | Store.tenantOf runs step.1 = some tenant ∧ ∃ pending,
    Parked archive runs step.1 step.2 pending ∧
      ¬ Answered archive runs step.1 (hexOf (decisionKeyFor archive tenant pending.path).bytes)}

theorem mem_undecided {runs : Table RunId Store.RunIndex} {tenant : String}
    {step : RunId × String} : step ∈ undecided archive runs tenant ↔
      Store.tenantOf runs step.1 = some tenant ∧ ∃ pending,
        Parked archive runs step.1 step.2 pending ∧
          ¬ Answered archive runs step.1
            (hexOf (decisionKeyFor archive tenant pending.path).bytes) := Iff.rfl

end Undecided

section Settle

variable {archive : Archive} {runs : Table RunId Store.RunIndex} {stored : Store.Stored}

theorem parked_insertStep (hfresh : Store.stepOf runs stored.run (hexOf stored.key) = none)
    {run : RunId} {key : String} {pending : PendingRecord} :
    Parked archive (Store.insertStep runs stored) run key pending ↔
      Parked archive runs run key pending ∨ (run = stored.run ∧ key = hexOf stored.key) ∧
        classifyRecord archive stored.value = .pending pending := by
  unfold Parked
  rw [Store.stepOf_insertStep]
  by_cases hplace : run = stored.run ∧ key = hexOf stored.key
  · obtain ⟨rfl, rfl⟩ := hplace
    rw [hfresh]
    simp
  · rw [if_neg hplace]
    simp [hplace]

theorem answered_insertStep (hfresh : Store.stepOf runs stored.run (hexOf stored.key) = none)
    {run : RunId} {key : String} : Answered archive (Store.insertStep runs stored) run key ↔
      Answered archive runs run key ∨ (run = stored.run ∧ key = hexOf stored.key) ∧
        ∃ decision, classifyRecord archive stored.value = .decision decision := by
  unfold Answered
  rw [Store.stepOf_insertStep]
  by_cases hplace : run = stored.run ∧ key = hexOf stored.key
  · obtain ⟨rfl, rfl⟩ := hplace
    rw [hfresh]
    simp
  · rw [if_neg hplace]
    simp [hplace]

theorem tenantOf_of_parked {run : RunId} {key : String} {pending : PendingRecord}
    (h : Parked archive runs run key pending) : ∃ tenant, Store.tenantOf runs run = some tenant := by
  obtain ⟨held, hstep, -⟩ := h
  obtain ⟨kept, hget, -⟩ := Option.bind_eq_some_iff.mp hstep
  exact ⟨kept.tenant, by rw [Store.tenantOf, hget, Option.map_some]⟩

theorem tenantOf_insertStep_eq
    (howner : ∀ tenant, Store.tenantOf runs stored.run = some tenant → tenant = stored.tenant)
    (run : RunId) : Store.tenantOf (Store.insertStep runs stored) run =
      if run = stored.run then some stored.tenant else Store.tenantOf runs run := by
  rw [Store.tenantOf_insertStep]
  by_cases hrun : run = stored.run
  · rw [if_pos hrun, if_pos hrun, hrun]
    cases htenant : Store.tenantOf runs stored.run with
    | none => rfl
    | some tenant => rw [howner tenant htenant, Option.getD_some]
  · rw [if_neg hrun, if_neg hrun]

end Settle

section Kept

variable {archive : Archive} {owner : RunId → String} {paths : Set String}
  {runs : Table RunId Store.RunIndex} {stored : Store.Stored}

/-- Committed records as the parties mean them: a parked approval lies under its own step's key, and
a decision in the slot of an approval that is parked. -/
structure Kept (archive : Archive) (owner : RunId → String) (paths : Set String)
    (runs : Table RunId Store.RunIndex) : Prop where
  owned : ∀ run tenant, Store.tenantOf runs run = some tenant → tenant = owner run
  parked : ∀ run key pending, Parked archive runs run key pending → pending.path ∈ paths ∧
    key = hexOf (stepKey archive (owner run) pending.path).bytes
  answered : ∀ run key, Answered archive runs run key → ∃ asked pending,
    Parked archive runs run asked pending ∧
      key = hexOf (decisionKeyFor archive (owner run) pending.path).bytes
  finite : ∀ tenant, (undecided archive runs tenant).Finite

structure Rightful (archive : Archive) (owner : RunId → String) (paths : Set String)
    (runs : Table RunId Store.RunIndex) (stored : Store.Stored) : Prop where
  owned : stored.tenant = owner stored.run
  parks : ∀ pending, classifyRecord archive stored.value = .pending pending →
    pending.path ∈ paths ∧ stored.key = (stepKey archive stored.tenant pending.path).bytes
  answers : ∀ decision, classifyRecord archive stored.value = .decision decision →
    ∃ asked pending, Parked archive runs stored.run asked pending ∧
      stored.key = (decisionKeyFor archive stored.tenant pending.path).bytes

theorem Kept.owner_eq (kept : Kept archive owner paths runs)
    (rightful : Rightful archive owner paths runs stored) (tenant : String)
    (h : Store.tenantOf runs stored.run = some tenant) : tenant = stored.tenant := by
  rw [rightful.owned]
  exact kept.owned _ _ h

theorem Kept.slot_inj (kept : Kept archive owner paths runs)
    (hdistinct : ∀ tenant, Set.InjOn (decisionKeyFor archive tenant) paths) {run : RunId}
    {asked key : String} {pending other : PendingRecord}
    (hasked : Parked archive runs run asked pending) (hpath : other.path ∈ paths)
    (hkey : key = hexOf (stepKey archive (owner run) other.path).bytes)
    (hslot : decisionKeyFor archive (owner run) pending.path =
      decisionKeyFor archive (owner run) other.path) : key = asked := by
  obtain ⟨hin, hat⟩ := kept.parked run asked pending hasked
  rw [hkey, hat, hdistinct (owner run) hin hpath hslot]

theorem Kept.slot_free (kept : Kept archive owner paths runs)
    (hdistinct : ∀ tenant, Set.InjOn (decisionKeyFor archive tenant) paths)
    (rightful : Rightful archive owner paths runs stored)
    (hfresh : Store.stepOf runs stored.run (hexOf stored.key) = none) {pending : PendingRecord}
    (hclass : classifyRecord archive stored.value = .pending pending) :
    ¬ Answered archive runs stored.run
      (hexOf (decisionKeyFor archive stored.tenant pending.path).bytes) := by
  intro hanswered
  obtain ⟨asked, other, hparked, hslot⟩ := kept.answered _ _ hanswered
  obtain ⟨hpath, hkey⟩ := rightful.parks pending hclass
  rw [rightful.owned] at hslot hkey
  have hsame : hexOf stored.key = asked := by
    refine kept.slot_inj hdistinct hparked hpath (by rw [hkey]) ?_
    exact (Digest.ext (hexOf_inj hslot)).symm
  obtain ⟨held, hstep, -⟩ := hparked
  rw [← hsame, hfresh] at hstep
  cases hstep

theorem Kept.undecided_pending (kept : Kept archive owner paths runs)
    (hdistinct : ∀ tenant, Set.InjOn (decisionKeyFor archive tenant) paths)
    (rightful : Rightful archive owner paths runs stored)
    (hfresh : Store.stepOf runs stored.run (hexOf stored.key) = none) {pending : PendingRecord}
    (hclass : classifyRecord archive stored.value = .pending pending) (tenant : String) :
    undecided archive (Store.insertStep runs stored) tenant =
      if tenant = stored.tenant then
        insert (stored.run, hexOf stored.key) (undecided archive runs tenant)
      else undecided archive runs tenant := by
  have hmem : ∀ step, step ∈ undecided archive (Store.insertStep runs stored) tenant ↔
      step ∈ undecided archive runs tenant ∨
        tenant = stored.tenant ∧ step = (stored.run, hexOf stored.key) := by
    rintro ⟨run, key⟩
    have hanswered : ∀ slot, Answered archive (Store.insertStep runs stored) run slot ↔
        Answered archive runs run slot := by
      intro slot
      rw [answered_insertStep hfresh, hclass]
      simp
    simp only [mem_undecided, hanswered, parked_insertStep hfresh, hclass,
      tenantOf_insertStep_eq (kept.owner_eq rightful)]
    constructor
    · rintro ⟨htenant, found, hparked | ⟨⟨hrun, hkey⟩, hfound⟩, hfree⟩
      · refine .inl ⟨?_, found, hparked, hfree⟩
        split at htenant
        · rename_i hrun
          obtain ⟨held, hheld⟩ := tenantOf_of_parked hparked
          rw [← htenant, hheld, kept.owner_eq rightful held (hrun ▸ hheld)]
        · exact htenant
      · rw [if_pos hrun] at htenant
        cases htenant
        exact .inr ⟨rfl, by rw [hrun, hkey]⟩
    · rintro (⟨htenant, found, hparked, hfree⟩ | ⟨rfl, hstep⟩)
      · refine ⟨?_, found, .inl hparked, hfree⟩
        split
        · rename_i hrun
          rw [kept.owner_eq rightful tenant (hrun ▸ htenant)]
        · exact htenant
      · cases hstep
        exact ⟨if_pos rfl, pending, .inr ⟨⟨rfl, rfl⟩, rfl⟩,
          kept.slot_free hdistinct rightful hfresh hclass⟩
  ext step
  rw [hmem]
  split
  · rename_i hsame
    rw [Set.mem_insert_iff]
    simp [hsame, or_comm]
  · rename_i hother
    simp [hother]

theorem Kept.undecided_decision (kept : Kept archive owner paths runs)
    (hdistinct : ∀ tenant, Set.InjOn (decisionKeyFor archive tenant) paths)
    (rightful : Rightful archive owner paths runs stored)
    (hfresh : Store.stepOf runs stored.run (hexOf stored.key) = none) {decision : DecisionRecord}
    (hclass : classifyRecord archive stored.value = .decision decision) :
    ∃ asked, (stored.run, asked) ∈ undecided archive runs stored.tenant ∧ ∀ tenant,
      undecided archive (Store.insertStep runs stored) tenant =
        if tenant = stored.tenant then undecided archive runs tenant \ {(stored.run, asked)}
        else undecided archive runs tenant := by
  obtain ⟨asked, pending, hparked, hkey⟩ := rightful.answers decision hclass
  obtain ⟨held, hheld⟩ := tenantOf_of_parked hparked
  have htenantOf := kept.owner_eq rightful held hheld
  rw [htenantOf] at hheld
  have hopen : (stored.run, asked) ∈ undecided archive runs stored.tenant := by
    refine ⟨hheld, pending, hparked, ?_⟩
    rintro ⟨held, found, hstep, -⟩
    rw [← hkey, hfresh] at hstep
    cases hstep
  refine ⟨asked, hopen, ?_⟩
  intro tenant
  have hmem : ∀ step, step ∈ undecided archive (Store.insertStep runs stored) tenant ↔
      step ∈ undecided archive runs tenant ∧
        ¬ (tenant = stored.tenant ∧ step = (stored.run, asked)) := by
    rintro ⟨run, key⟩
    have hparkedNew : ∀ key found, Parked archive (Store.insertStep runs stored) run key found ↔
        Parked archive runs run key found := by
      intro key found
      rw [parked_insertStep hfresh, hclass]
      simp
    simp only [mem_undecided, hparkedNew, answered_insertStep hfresh,
      tenantOf_insertStep_eq (kept.owner_eq rightful)]
    constructor
    · rintro ⟨htenant, found, hfound, hfree⟩
      obtain ⟨other, hother⟩ := tenantOf_of_parked hfound
      have hsame : Store.tenantOf runs run = some tenant := by
        split at htenant
        · rename_i hrun
          rw [← htenant, hother, kept.owner_eq rightful other (hrun ▸ hother)]
        · exact htenant
      refine ⟨⟨hsame, found, hfound, fun hold => hfree (.inl hold)⟩, ?_⟩
      rintro ⟨rfl, hstep⟩
      cases hstep
      obtain ⟨one, hone, hclassOne⟩ := hfound
      obtain ⟨two, htwo, hclassTwo⟩ := hparked
      rw [hone, Option.some.injEq] at htwo
      rw [htwo, hclassTwo, RecordClass.pending.injEq] at hclassOne
      exact hfree (.inr ⟨⟨rfl, by rw [hkey, hclassOne]⟩, decision, hclass⟩)
    · rintro ⟨⟨htenant, found, hfound, hfree⟩, hnot⟩
      refine ⟨?_, found, hfound, ?_⟩
      · split
        · rename_i hrun
          rw [kept.owner_eq rightful tenant (hrun ▸ htenant)]
        · exact htenant
      · rintro (hold | ⟨⟨hrun, hslot⟩, -⟩)
        · exact hfree hold
        · subst hrun
          have hmine := kept.owner_eq rightful tenant htenant
          obtain ⟨hpath, hat⟩ := kept.parked _ _ _ hfound
          refine hnot ⟨hmine, Prod.ext rfl (kept.slot_inj hdistinct hparked hpath hat ?_)⟩
          rw [hkey, hmine] at hslot
          rw [← rightful.owned]
          exact (Digest.ext (hexOf_inj hslot)).symm
  ext step
  rw [hmem]
  split
  · rename_i hsame
    simp [hsame]
  · rename_i hother
    simp [hother]

theorem Rightful.insertStep {other : Store.Stored}
    (rightful : Rightful archive owner paths runs other)
    (hfresh : Store.stepOf runs stored.run (hexOf stored.key) = none) :
    Rightful archive owner paths (Store.insertStep runs stored) other := by
  refine ⟨rightful.owned, rightful.parks, ?_⟩
  intro decision hclass
  obtain ⟨asked, pending, hparked, hkey⟩ := rightful.answers decision hclass
  exact ⟨asked, pending, (parked_insertStep hfresh).mpr (.inl hparked), hkey⟩

theorem Kept.undecided_other (kept : Kept archive owner paths runs)
    (rightful : Rightful archive owner paths runs stored)
    (hfresh : Store.stepOf runs stored.run (hexOf stored.key) = none)
    (hclass : classifyRecord archive stored.value = .other) (tenant : String) :
    undecided archive (Store.insertStep runs stored) tenant = undecided archive runs tenant := by
  ext ⟨run, key⟩
  have hparked : ∀ found, Parked archive (Store.insertStep runs stored) run key found ↔
      Parked archive runs run key found := by
    intro found
    rw [parked_insertStep hfresh, hclass]
    simp
  have hanswered : ∀ slot, Answered archive (Store.insertStep runs stored) run slot ↔
      Answered archive runs run slot := by
    intro slot
    rw [answered_insertStep hfresh, hclass]
    simp
  simp only [mem_undecided, hparked, hanswered, tenantOf_insertStep_eq (kept.owner_eq rightful)]
  constructor
  · rintro ⟨htenant, found, hfound, hfree⟩
    refine ⟨?_, found, hfound, hfree⟩
    obtain ⟨other, hother⟩ := tenantOf_of_parked hfound
    split at htenant
    · rename_i hrun
      rw [← htenant, hother, kept.owner_eq rightful other (hrun ▸ hother)]
    · exact htenant
  · rintro ⟨htenant, found, hfound, hfree⟩
    refine ⟨?_, found, hfound, hfree⟩
    split
    · rename_i hrun
      rw [kept.owner_eq rightful tenant (hrun ▸ htenant)]
    · exact htenant

theorem Kept.finite_insertStep (kept : Kept archive owner paths runs)
    (hdistinct : ∀ tenant, Set.InjOn (decisionKeyFor archive tenant) paths)
    (rightful : Rightful archive owner paths runs stored)
    (hfresh : Store.stepOf runs stored.run (hexOf stored.key) = none) (tenant : String) :
    (undecided archive (Store.insertStep runs stored) tenant).Finite := by
  cases hclass : classifyRecord archive stored.value with
  | pending pending =>
    rw [kept.undecided_pending hdistinct rightful hfresh hclass]
    split
    · exact (kept.finite tenant).insert _
    · exact kept.finite tenant
  | decision decision =>
    obtain ⟨asked, -, hsame⟩ := kept.undecided_decision hdistinct rightful hfresh hclass
    rw [hsame]
    split
    · exact (kept.finite tenant).sdiff
    · exact kept.finite tenant
  | other =>
    rw [kept.undecided_other rightful hfresh hclass]
    exact kept.finite tenant

theorem Kept.insertStep (kept : Kept archive owner paths runs)
    (hdistinct : ∀ tenant, Set.InjOn (decisionKeyFor archive tenant) paths)
    (rightful : Rightful archive owner paths runs stored)
    (hfresh : Store.stepOf runs stored.run (hexOf stored.key) = none) :
    Kept archive owner paths (Store.insertStep runs stored) := by
  constructor
  case owned =>
    intro run tenant htenant
    rw [tenantOf_insertStep_eq (kept.owner_eq rightful)] at htenant
    split at htenant
    · rename_i hrun
      cases htenant
      rw [hrun, rightful.owned]
    · exact kept.owned run tenant htenant
  case parked =>
    intro run key pending hparked
    rcases (parked_insertStep hfresh).mp hparked with hold | ⟨⟨rfl, rfl⟩, hclass⟩
    · exact kept.parked run key pending hold
    · obtain ⟨hpath, hkey⟩ := rightful.parks pending hclass
      exact ⟨hpath, by rw [hkey, rightful.owned]⟩
  case answered =>
    intro run key hanswered
    rcases (answered_insertStep hfresh).mp hanswered with hold | ⟨⟨rfl, rfl⟩, decision, hclass⟩
    · obtain ⟨asked, pending, hparked, hkey⟩ := kept.answered run key hold
      exact ⟨asked, pending, (parked_insertStep hfresh).mpr (.inl hparked), hkey⟩
    · obtain ⟨asked, pending, hparked, hkey⟩ := rightful.answers decision hclass
      exact ⟨asked, pending, (parked_insertStep hfresh).mpr (.inl hparked),
        by rw [hkey, rightful.owned]⟩
  case finite => exact kept.finite_insertStep hdistinct rightful hfresh

end Kept

section Count

variable {formats : Formats} {owner : RunId → String} {paths : Set String} {index : Store.Index}
  {stored : Store.Stored}

def RecordClass.tag : RecordClass → Store.RecordClass
  | .pending _ => .pending
  | .decision _ => .decision
  | .other => .other

theorem Formats.classify (formats : Formats) (bytes : Bytes) :
    Store.classifyRecord formats.wire bytes = (classifyRecord formats.archive bytes).tag := by
  unfold Store.classifyRecord classifyRecord
  rw [formats.reads]
  cases formats.archive.fromRecord bytes with
  | none => rfl
  | some record => cases record <;> rfl

def countAfter (class_ : RecordClass) (held : Nat) : Nat :=
  match class_ with
  | .pending _ => held + 1
  | .decision _ => held - 1
  | .other => held

theorem pendingCount_settle (tenant : String) :
    pendingCount (Store.settle formats.wire stored index) tenant =
      if tenant = stored.tenant then
        countAfter (classifyRecord formats.archive stored.value) (pendingCount index tenant)
      else pendingCount index tenant := by
  unfold pendingCount Store.settle Store.countApproval countAfter
  dsimp only
  rw [formats.classify]
  unfold RecordClass.tag
  cases classifyRecord formats.archive stored.value with
  | pending pending =>
    cases hheld : index.pending.get stored.tenant with
    | none =>
      simp only [Table.get_insert]
      split
      · rename_i hsame
        rw [hsame, hheld]
        rfl
      · rfl
    | some held =>
      simp only [Table.get_insert]
      split
      · rename_i hsame
        rw [hsame, hheld]
        rfl
      · rfl
  | decision decision =>
    cases hheld : index.pending.get stored.tenant with
    | none =>
      dsimp only
      split
      · rename_i hsame
        rw [hsame, hheld]
        rfl
      · rfl
    | some held =>
      simp only [Table.get_insert]
      split
      · rename_i hsame
        rw [hsame, hheld]
        rfl
      · rfl
  | other => simp

theorem Kept.count (kept : Kept formats.archive owner paths index.runs)
    (hdistinct : ∀ tenant, Set.InjOn (decisionKeyFor formats.archive tenant) paths)
    (rightful : Rightful formats.archive owner paths index.runs stored)
    (hfresh : Store.stepOf index.runs stored.run (hexOf stored.key) = none)
    (hcount : ∀ tenant, pendingCount index tenant =
      (undecided formats.archive index.runs tenant).ncard) (tenant : String) :
    pendingCount (Store.settle formats.wire stored index) tenant =
      (undecided formats.archive (Store.settle formats.wire stored index).runs tenant).ncard := by
  have hruns : (Store.settle formats.wire stored index).runs =
      Store.insertStep index.runs stored := rfl
  rw [pendingCount_settle, hruns, hcount]
  cases hclass : classifyRecord formats.archive stored.value with
  | pending pending =>
    have hnew : (stored.run, hexOf stored.key) ∉
        undecided formats.archive index.runs tenant := by
      rintro ⟨-, _, ⟨held, hstep, -⟩, -⟩
      rw [hfresh] at hstep
      cases hstep
    rw [kept.undecided_pending hdistinct rightful hfresh hclass]
    split
    · rw [Set.ncard_insert_of_notMem hnew (kept.finite tenant)]
      rfl
    · rfl
  | decision decision =>
    obtain ⟨asked, hopen, hsame⟩ := kept.undecided_decision hdistinct rightful hfresh hclass
    rw [hsame]
    split
    · rename_i hmine
      rw [Set.ncard_sdiff_singleton_of_mem (hmine ▸ hopen)]
      rfl
    · rfl
  | other =>
    rw [kept.undecided_other rightful hfresh hclass]
    split
    · rfl
    · rfl

end Count

end LogicalWorks.Approval
