import LogicalWorks.Tenant.Committed

/-! The rows of a tenant store: a run and its lanes move as one machine, whatever order the
coordinators come in, and every handle reads the same rows. -/
namespace LogicalWorks.Tenant

open Journal LogicalWorks.Task

variable {wire : Wire} {index : Index} {stored : Stored} {entry later last : RunEntry}

inductive RunStep (entry : RunEntry) : RunEntry → Prop where
  | dispatches {lane : Nat} {slot : LaneEntry} (hslot : entry.lanes[lane]? = some slot)
      (hpending : slot.state = .pending) :
      RunStep entry { entry with
        lanes := entry.lanes.modify lane fun slot => { slot with state := .dispatched } }
  | ends {lane : Nat} {slot : LaneEntry} (outcome detail : String) (tail : Bytes)
      (hslot : entry.lanes[lane]? = some slot) (hopen : slot.state ≠ .ended) :
      RunStep entry { entry with
        lanes := entry.lanes.modify lane fun slot =>
          { endLane slot outcome detail with tail := some tail } }
  | finishes (moment verdict record sealed : String) (hopen : entry.close = none) :
      RunStep entry { entry with close := some (.finished moment verdict record sealed) }
  | abandons (moment : String) (hopen : entry.close = none) :
      RunStep entry { entry with
        close := some (.abandoned moment)
        lanes := entry.lanes.map abandonLane }

inductive Folded (index : Index) (stored : Stored) : Prop where
  | policy (policy : StoredPolicy) (hkind : stored.kind = kindInitPolicy)
      (hnew : index.policies.get stored.tenant = none)
      (hfold : fold index stored =
        { index with policies := index.policies.insert stored.tenant policy })
  | begun (entry : RunEntry) (hkind : stored.kind = kindBeginRun)
      (hnew : index.runs.get stored.runId = none) (hclose : entry.close = none)
      (hfold : fold index stored = { index with runs := index.runs.insert stored.runId entry })
  | moved (entry later : RunEntry) (hpolicy : stored.kind ≠ kindInitPolicy)
      (hbegin : stored.kind ≠ kindBeginRun) (hrun : index.runs.get stored.runId = some entry)
      (hstep : RunStep entry later)
      (hfold : fold index stored = { index with runs := index.runs.insert stored.runId later })

theorem fold_onRun (hpolicy : stored.kind ≠ kindInitPolicy) (hbegin : stored.kind ≠ kindBeginRun)
    (hrun : index.runs.get stored.runId = some entry) :
    fold index stored =
      { index with runs := index.runs.insert stored.runId (foldRun entry stored) } := by
  unfold fold
  rw [if_neg hpolicy, if_neg hbegin, hrun]

theorem Folded.run {kind : UInt8} (hkind : stored.kind = kind) (hpolicy : kind ≠ kindInitPolicy)
    (hbegin : kind ≠ kindBeginRun) (hrun : index.runs.get stored.runId = some entry)
    (hstep : RunStep entry (foldRun entry stored)) : Folded index stored := by
  rw [← hkind] at hpolicy hbegin
  exact .moved entry _ hpolicy hbegin hrun hstep (fold_onRun hpolicy hbegin hrun)

theorem Brings.folded (h : Brings index stored) : Folded index stored := by
  cases h with
  | initPolicy tenant gatesJson hardness now hnew => exact .policy _ rfl hnew rfl
  | beginRun run lanes hnew => exact .begun _ rfl hnew rfl rfl
  | laneDispatched runId lane entry slot hrun hslot hpending =>
    exact @Folded.run index _ entry kindLaneDispatched rfl (by decide) (by decide) hrun
      (.dispatches hslot hpending)
  | laneEnded runId lane outcome detail tail entry slot hrun hslot hopen =>
    exact @Folded.run index _ entry kindLaneEnded rfl (by decide) (by decide) hrun
      (.ends outcome detail tail hslot hopen)
  | finishRun runId verdict finishedAt record sealed entry hrun hopen =>
    exact @Folded.run index _ entry kindFinishRun rfl (by decide) (by decide) hrun
      (.finishes finishedAt verdict record sealed hopen)
  | abandon runId now entry hrun hopen =>
    exact @Folded.run index _ entry kindAbandonRun rfl (by decide) (by decide) hrun
      (.abandons now hopen)

def LaneState.rank : LaneState → Nat
  | .pending => 0
  | .dispatched => 1
  | .ended => 2

structure LaneBecomes (slot later : LaneEntry) : Prop where
  id : later.id = slot.id
  order : slot.state.rank ≤ later.state.rank
  ended : slot.state = .ended → later = slot

structure RunBecomes (entry later : RunEntry) : Prop where
  begun : { later with close := entry.close, lanes := entry.lanes } = entry
  plan : later.lanes.length = entry.lanes.length
  lanes : ∀ {lane : Nat} {slot : LaneEntry}, entry.lanes[lane]? = some slot →
    ∃ next, later.lanes[lane]? = some next ∧ LaneBecomes slot next
  close : ∀ {close}, entry.close = some close → later.close = some close

structure IndexBecomes (index later : Index) : Prop where
  policies : ∀ {tenant policy}, index.policies.get tenant = some policy →
    later.policies.get tenant = some policy
  runs : ∀ {runId entry}, index.runs.get runId = some entry →
    ∃ next, later.runs.get runId = some next ∧ RunBecomes entry next

theorem LaneBecomes.refl (slot : LaneEntry) : LaneBecomes slot slot :=
  ⟨rfl, Nat.le_refl _, fun _ => rfl⟩

theorem LaneBecomes.trans {slot next final : LaneEntry} (h : LaneBecomes slot next)
    (h' : LaneBecomes next final) : LaneBecomes slot final := by
  refine ⟨h'.id.trans h.id, Nat.le_trans h.order h'.order, ?_⟩
  intro hended
  have hsame := h.ended hended
  rw [hsame] at h'
  exact h'.ended hended

theorem RunBecomes.refl (entry : RunEntry) : RunBecomes entry entry :=
  ⟨rfl, rfl, fun hslot => ⟨_, hslot, .refl _⟩, fun h => h⟩

theorem RunBecomes.trans (h : RunBecomes entry later) (h' : RunBecomes later last) :
    RunBecomes entry last := by
  refine ⟨?_, h'.plan.trans h.plan, ?_, fun hclose => h'.close (h.close hclose)⟩
  · rw [← h.begun, ← h'.begun]
  · intro lane slot hslot
    obtain ⟨next, hnext, hmove⟩ := h.lanes hslot
    obtain ⟨final, hfinal, hmove'⟩ := h'.lanes hnext
    exact ⟨final, hfinal, hmove.trans hmove'⟩

theorem IndexBecomes.refl (index : Index) : IndexBecomes index index :=
  ⟨fun h => h, fun h => ⟨_, h, .refl _⟩⟩

theorem IndexBecomes.trans {next final : Index} (h : IndexBecomes index next)
    (h' : IndexBecomes next final) : IndexBecomes index final := by
  refine ⟨fun hpolicy => h'.policies (h.policies hpolicy), ?_⟩
  intro runId entry hrun
  obtain ⟨later, hlater, hmove⟩ := h.runs hrun
  obtain ⟨last, hlast, hmove'⟩ := h'.runs hlater
  exact ⟨last, hlast, hmove.trans hmove'⟩

theorem LaneBecomes.dispatch {slot : LaneEntry} (hpending : slot.state = .pending) :
    LaneBecomes slot { slot with state := .dispatched } := by
  refine ⟨rfl, ?_, ?_⟩
  · rw [hpending]
    exact Nat.zero_le _
  · intro hended
    rw [hpending] at hended
    cases hended

theorem LaneBecomes.finish {slot : LaneEntry} (hopen : slot.state ≠ .ended)
    (outcome detail : Option String) (tail : Option Bytes) :
    LaneBecomes slot ⟨slot.id, .ended, outcome, detail, tail⟩ := by
  refine ⟨rfl, ?_, fun hended => absurd hended hopen⟩
  change slot.state.rank ≤ LaneState.ended.rank
  cases slot.state with
  | pending | dispatched | ended => decide

theorem LaneBecomes.abandon (slot : LaneEntry) : LaneBecomes slot (abandonLane slot) := by
  unfold abandonLane
  split
  · rename_i hdispatched
    refine .finish ?_ _ _ _
    rw [hdispatched]
    decide
  · split
    · rename_i hpending
      refine .finish ?_ _ _ _
      rw [hpending]
      decide
    · exact .refl slot

theorem state_abandonLane (slot : LaneEntry) : (abandonLane slot).state = .ended := by
  unfold abandonLane
  split
  · rfl
  · split
    · rfl
    · cases hstate : slot.state with
      | pending => contradiction
      | dispatched => contradiction
      | ended => rfl

theorem outcome_abandonLane {slot : LaneEntry} (hopen : slot.state ≠ .ended) :
    (abandonLane slot).outcome = some outcomeUnknown ∨
      (abandonLane slot).outcome = some outcomeUnmeasured := by
  unfold abandonLane
  split
  · exact .inl rfl
  · split
    · exact .inr rfl
    · cases hstate : slot.state with
      | pending => contradiction
      | dispatched => contradiction
      | ended => exact absurd hstate hopen

theorem RunBecomes.modify {lane : Nat} {slot : LaneEntry} {change : LaneEntry → LaneEntry}
    (hslot : entry.lanes[lane]? = some slot) (hchange : LaneBecomes slot (change slot)) :
    RunBecomes entry { entry with lanes := entry.lanes.modify lane change } := by
  refine ⟨rfl, List.length_modify _ _ _, ?_, fun h => h⟩
  intro asked here hhere
  by_cases hasked : lane = asked
  · rw [hasked, hhere] at hslot
    cases hslot
    refine ⟨change slot, ?_, hchange⟩
    simp [hasked, hhere]
  · refine ⟨here, ?_, .refl here⟩
    simp [hasked, hhere]

theorem RunStep.becomes (h : RunStep entry later) : RunBecomes entry later := by
  cases h with
  | dispatches hslot hpending => exact .modify hslot (.dispatch hpending)
  | ends outcome detail tail hslot hopen => exact .modify hslot (.finish hopen _ _ _)
  | finishes moment verdict record sealed hopen =>
    refine ⟨rfl, rfl, fun hslot => ⟨_, hslot, .refl _⟩, ?_⟩
    intro close hclose
    rw [hopen] at hclose
    cases hclose
  | abandons moment hopen =>
    refine ⟨rfl, List.length_map _, ?_, ?_⟩
    · intro lane slot hslot
      refine ⟨abandonLane slot, ?_, .abandon slot⟩
      simp [hslot]
    · intro close hclose
      rw [hopen] at hclose
      cases hclose

def Settled (entry : RunEntry) : Prop :=
  ∀ moment, entry.close = some (.abandoned moment) → ∀ lane ∈ entry.lanes, lane.state = .ended

theorem RunBecomes.lanes_eq (h : RunBecomes entry later)
    (hended : ∀ lane ∈ entry.lanes, lane.state = .ended) : later.lanes = entry.lanes := by
  apply List.ext_getElem?
  intro lane
  cases hslot : entry.lanes[lane]? with
  | none =>
    rw [List.getElem?_eq_none_iff] at hslot ⊢
    rw [h.plan]
    exact hslot
  | some slot =>
    obtain ⟨next, hnext, hmove⟩ := h.lanes hslot
    rw [hnext, hmove.ended (hended slot (List.mem_of_getElem? hslot))]

theorem RunStep.settled (h : RunStep entry later) (settled : Settled entry) : Settled later := by
  intro moment hclose
  cases h with
  | dispatches hslot hpending =>
    have hkeep := (RunStep.dispatches hslot hpending).becomes.lanes_eq (settled moment hclose)
    rw [hkeep]
    exact settled moment hclose
  | ends outcome detail tail hslot hopen =>
    have hkeep := (RunStep.ends outcome detail tail hslot hopen).becomes.lanes_eq
      (settled moment hclose)
    rw [hkeep]
    exact settled moment hclose
  | finishes => cases hclose
  | abandons =>
    intro lane hlane
    obtain ⟨slot, -, rfl⟩ := List.mem_map.mp hlane
    exact state_abandonLane slot

theorem Folded.becomes (h : Folded index stored) : IndexBecomes index (fold index stored) := by
  cases h with
  | policy policy hkind hnew hfold =>
    rw [hfold]
    refine ⟨?_, fun hrun => ⟨_, hrun, .refl _⟩⟩
    intro tenant before hpolicy
    have hother : tenant ≠ stored.tenant := by
      rintro rfl
      rw [hnew] at hpolicy
      cases hpolicy
    exact (Table.get_insert_of_ne _ _ hother).trans hpolicy
  | begun entry hkind hnew hclose hfold =>
    rw [hfold]
    refine ⟨fun h => h, ?_⟩
    intro runId before hrun
    have hother : runId ≠ stored.runId := by
      rintro rfl
      rw [hnew] at hrun
      cases hrun
    exact ⟨before, (Table.get_insert_of_ne _ _ hother).trans hrun, .refl before⟩
  | moved entry later hpolicy hbegin hrun hstep hfold =>
    rw [hfold]
    refine ⟨fun h => h, ?_⟩
    intro runId before hbefore
    rw [Table.get_insert]
    split
    · rename_i hsame
      rw [hsame, hrun] at hbefore
      cases hbefore
      exact ⟨later, rfl, hstep.becomes⟩
    · exact ⟨before, hbefore, .refl before⟩

theorem Admitted.becomes {records first : List Stored} (h : Admitted wire records)
    (hfirst : first <+: records) : IndexBecomes (indexFor wire first) (indexFor wire records) := by
  induction h with
  | nil =>
    rw [List.prefix_nil.mp hfirst]
    exact .refl _
  | @snoc before operation stored answer hbefore happly ih =>
    rcases List.prefix_concat_iff.mp hfirst with rfl | hearlier
    · exact .refl _
    · have hstep := (apply_some happly).folded.becomes
      refine (ih hearlier).trans ?_
      rw [indexFor_append]
      exact ⟨hstep.policies, hstep.runs⟩

theorem Admitted.settled {records : List Stored} (h : Admitted wire records) :
    ∀ runId entry, (indexFor wire records).runs.get runId = some entry → Settled entry := by
  induction h with
  | nil =>
    intro runId entry hrun
    cases hrun
  | @snoc before operation stored answer hbefore happly ih =>
    intro runId asked hasked
    rw [indexFor_append] at hasked
    change (fold (indexFor wire before) stored).runs.get runId = some asked at hasked
    cases (apply_some happly).folded with
    | policy policy hkind hnew hfold =>
      rw [hfold] at hasked
      exact ih runId asked hasked
    | begun entry hkind hnew hclose hfold =>
      rw [hfold, Table.get_insert] at hasked
      split at hasked
      · cases hasked
        intro moment habandoned
        rw [hclose] at habandoned
        cases habandoned
      · exact ih runId asked hasked
    | moved entry later hpolicy hbegin hrun hstep hfold =>
      rw [hfold, Table.get_insert] at hasked
      split at hasked
      · cases hasked
        exact hstep.settled (ih _ _ hrun)
      · exact ih runId asked hasked

theorem Admitted.brought {records first rest : List Stored} {stored : Stored}
    (h : Admitted wire records) (hrecords : records = first ++ stored :: rest) :
    Brings (indexFor wire first) stored := by
  induction h generalizing rest with
  | nil => cases first <;> cases hrecords
  | @snoc before operation lastRecord answer hbefore happly ih =>
    rcases List.eq_nil_or_concat' rest with rfl | ⟨others, ending, rfl⟩
    · obtain ⟨rfl, hlast⟩ := List.append_inj' hrecords rfl
      cases hlast
      exact apply_some happly
    · rw [← List.cons_append, ← List.append_assoc] at hrecords
      exact ih (List.append_inj' hrecords rfl).1

def isPolicyOf (tenant : String) (stored : Stored) : Bool :=
  stored.kind = kindInitPolicy && stored.tenant = tenant

def isBeginOf (runId : String) (stored : Stored) : Bool :=
  stored.kind = kindBeginRun && stored.runId = runId

theorem Folded.policies_count (h : Folded index stored) (tenant : String) :
    ((fold index stored).policies.get tenant).isSome.toNat =
      (index.policies.get tenant).isSome.toNat +
        if isPolicyOf tenant stored then 1 else 0 := by
  unfold isPolicyOf
  cases h with
  | policy policy hkind hnew hfold =>
    rw [hfold, Table.get_insert]
    by_cases hsame : tenant = stored.tenant
    · simp [hsame, hkind, hnew]
    · simp [hsame, Ne.symm hsame]
  | begun entry hkind hnew hclose hfold =>
    have hother : stored.kind ≠ kindInitPolicy := by
      rw [hkind]
      decide
    simp [hfold, hother]
  | moved entry later hpolicy hbegin hrun hstep hfold => simp [hfold, hpolicy]

theorem Folded.runs_count (h : Folded index stored) (runId : String) :
    ((fold index stored).runs.get runId).isSome.toNat =
      (index.runs.get runId).isSome.toNat +
        if isBeginOf runId stored then 1 else 0 := by
  unfold isBeginOf
  cases h with
  | policy policy hkind hnew hfold =>
    have hother : stored.kind ≠ kindBeginRun := by
      rw [hkind]
      decide
    simp [hfold, hother]
  | begun entry hkind hnew hclose hfold =>
    rw [hfold, Table.get_insert]
    by_cases hsame : runId = stored.runId
    · simp [hsame, hkind, hnew]
    · simp [hsame, Ne.symm hsame]
  | moved entry later hpolicy hbegin hrun hstep hfold =>
    rw [hfold, Table.get_insert]
    by_cases hsame : runId = stored.runId
    · simp [hsame, hbegin, hrun]
    · simp [hsame, hbegin]

theorem Admitted.policies_count {records : List Stored} (h : Admitted wire records)
    (tenant : String) : records.countP (isPolicyOf tenant) =
      ((indexFor wire records).policies.get tenant).isSome.toNat := by
  induction h with
  | nil => rfl
  | @snoc before operation stored answer hbefore happly ih =>
    rw [List.countP_append, List.countP_singleton, indexFor_append, ih]
    exact ((apply_some happly).folded.policies_count tenant).symm

theorem Admitted.runs_count {records : List Stored} (h : Admitted wire records)
    (runId : String) : records.countP (isBeginOf runId) =
      ((indexFor wire records).runs.get runId).isSome.toNat := by
  induction h with
  | nil => rfl
  | @snoc before operation stored answer hbefore happly ih =>
    rw [List.countP_append, List.countP_singleton, indexFor_append, ih]
    exact ((apply_some happly).folded.runs_count runId).symm

theorem Brings.abandoned {runId now : String} (h : Brings index (.abandonRun runId now)) :
    ∃ entry, index.runs.get runId = some entry ∧ entry.close = none := by
  generalize hrecord : Stored.abandonRun runId now = record at h
  have hkind : record.kind = kindAbandonRun := by rw [← hrecord]; rfl
  cases h with
  | initPolicy => exact absurd (show kindInitPolicy = kindAbandonRun from hkind) (by decide)
  | beginRun => exact absurd (show kindBeginRun = kindAbandonRun from hkind) (by decide)
  | laneDispatched => exact absurd (show kindLaneDispatched = kindAbandonRun from hkind) (by decide)
  | laneEnded => exact absurd (show kindLaneEnded = kindAbandonRun from hkind) (by decide)
  | finishRun => exact absurd (show kindFinishRun = kindAbandonRun from hkind) (by decide)
  | abandon other moment entry hrun hopen =>
    have hsame : runId = other := congrArg Stored.runId hrecord
    rw [hsame]
    exact ⟨entry, hrun, hopen⟩

theorem Admitted.abandoned {records first rest : List Stored} {runId now : String}
    (h : Admitted wire records) (hrecords : records = first ++ Stored.abandonRun runId now :: rest) :
    ∃ entry last, (indexFor wire first).runs.get runId = some entry ∧ entry.close = none ∧
      (indexFor wire records).runs.get runId = some last ∧
      last.close = some (.abandoned now) ∧ last.lanes = entry.lanes.map abandonLane := by
  obtain ⟨entry, hrun, hopen⟩ := (h.brought hrecords).abandoned
  have hfold : (indexFor wire (first ++ [.abandonRun runId now])).runs.get runId =
      some (foldRun entry (.abandonRun runId now)) := by
    rw [indexFor_append]
    change (fold (indexFor wire first) (.abandonRun runId now)).runs.get runId = _
    rw [@fold_onRun (indexFor wire first) (.abandonRun runId now) entry
        (show kindAbandonRun ≠ kindInitPolicy by decide)
        (show kindAbandonRun ≠ kindBeginRun by decide) hrun]
    exact Table.get_insert_self _ _ _
  have hprefix : first ++ [Stored.abandonRun runId now] <+: records := by
    rw [hrecords]
    exact ⟨rest, by simp⟩
  obtain ⟨last, hlast, hmove⟩ := (h.becomes hprefix).runs hfold
  refine ⟨entry, last, hrun, hopen, hlast, hmove.close rfl, hmove.lanes_eq ?_⟩
  intro lane hlane
  obtain ⟨slot, -, rfl⟩ := List.mem_map.mp hlane
  exact state_abandonLane slot

def Store.rows (wire : Wire) (store : Store) : Index :=
  (fullReplay wire ⟨store.bytes, 0⟩ (.fresh wire)).2.2

theorem Kept.rows (lawful : wire.Lawful) {store : Store} (kept : Kept wire store) :
    store.rows wire = indexFor wire store.written := by
  unfold Store.rows
  rcases kept.file with ⟨hempty, hwritten, -⟩ | ⟨cut, hcut, hbytes⟩
  · rw [hempty, hwritten]
    rfl
  · rw [fullReplay_file lawful kept.writable hcut hbytes]

/-- In every run whose steps find the handle at the end of a whole file, each handle reads the
rows the file folds to, and a run's row and its lanes move as one machine. -/
theorem rows_kept (lawful : wire.Lawful) {before after : List (Store × Action)}
    {state final : Store} (reached : Run (Store.Step wire) .empty before state)
    (later : Run (Store.Step wire) state after final)
    (hallowed : ∀ taken ∈ before ++ after, Appends wire taken.1 taken.2) :
    (∀ id held, final.handles.get id = some held →
      (fullReplay wire ⟨final.bytes, 0⟩ (.fresh wire)).1 = .ok () ∧
        (refresh wire ⟨final.bytes, held.position⟩ held.index).1 = .ok () ∧
        (refresh wire ⟨final.bytes, held.position⟩ held.index).2.2 = final.rows wire) ∧
      (∀ tenant, final.written.countP (isPolicyOf tenant) ≤ 1) ∧
      (∀ runId, final.written.countP (isBeginOf runId) ≤ 1) ∧
      IndexBecomes (state.rows wire) (final.rows wire) ∧
      (∀ runId entry moment, (state.rows wire).runs.get runId = some entry →
        entry.close = some (.abandoned moment) →
        (∀ lane ∈ entry.lanes, lane.state = .ended) ∧
          ∃ last, (final.rows wire).runs.get runId = some last ∧ last.lanes = entry.lanes) ∧
      ∀ first rest runId now, final.written = first ++ Stored.abandonRun runId now :: rest →
        ∃ entry last, (indexFor wire first).runs.get runId = some entry ∧ entry.close = none ∧
          (final.rows wire).runs.get runId = some last ∧ last.close = some (.abandoned now) ∧
          (∀ lane ∈ last.lanes, lane.state = .ended) ∧
          ∀ {lane : Nat} {slot : LaneEntry}, entry.lanes[lane]? = some slot →
            slot.state ≠ .ended → ∃ ended, last.lanes[lane]? = some ended ∧
              (ended.outcome = some outcomeUnknown ∨
                ended.outcome = some outcomeUnmeasured) := by
  obtain ⟨kept, -, -⟩ := Kept.empty.run lawful reached
    (fun taken htaken => hallowed taken (List.mem_append_left _ htaken))
  obtain ⟨hfinal, hwritten, -⟩ := kept.run lawful later
    (fun taken htaken => hallowed taken (List.mem_append_right _ htaken))
  rw [kept.rows lawful, hfinal.rows lawful]
  have hbecomes := hfinal.admitted.becomes hwritten
  refine ⟨?_, ?_, ?_, hbecomes, ?_, ?_⟩
  · intro id held hheld
    rw [hfinal.refresh lawful hheld]
    refine ⟨?_, rfl, rfl⟩
    rcases hfinal.file with ⟨-, -, hnone⟩ | ⟨cut, hcut, hbytes⟩
    · rw [hnone id] at hheld
      cases hheld
    · rw [fullReplay_file lawful hfinal.writable hcut hbytes]
  · intro tenant
    rw [hfinal.admitted.policies_count]
    exact Bool.toNat_le _
  · intro runId
    rw [hfinal.admitted.runs_count]
    exact Bool.toNat_le _
  · intro runId entry moment hrun habandoned
    have hended := kept.admitted.settled runId entry hrun moment habandoned
    obtain ⟨last, hlast, hmove⟩ := hbecomes.runs hrun
    exact ⟨hended, last, hlast, hmove.lanes_eq hended⟩
  · intro first rest runId now hrecords
    obtain ⟨entry, last, hrun, hopen, hlast, hclose, hlanes⟩ :=
      hfinal.admitted.abandoned hrecords
    refine ⟨entry, last, hrun, hopen, hlast, hclose, ?_, ?_⟩
    · intro lane hlane
      rw [hlanes] at hlane
      obtain ⟨slot, -, rfl⟩ := List.mem_map.mp hlane
      exact state_abandonLane slot
    · intro lane slot hslot hstate
      refine ⟨abandonLane slot, ?_, outcome_abandonLane hstate⟩
      rw [hlanes, List.getElem?_map, hslot]
      rfl

namespace PlainWire

def dispatchAction : Action := .transact 0 (.laneDispatched "r" 0)

def abandonAction : Action := .transact 0 (.abandon "r" "")

def begunStore : Store := [.opens 0, beginAction].foldl (Store.act plain) .empty

def abandonedStore : Store := [dispatchAction, abandonAction].foldl (Store.act plain) begunStore

theorem rows_kept_abandoned :
    IndexBecomes (begunStore.rows plain) (abandonedStore.rows plain) ∧
      ∃ last, (abandonedStore.rows plain).runs.get "r" = some last ∧
        last.close = some (.abandoned "") ∧ ∀ lane ∈ last.lanes, lane.state = .ended := by
  obtain ⟨-, -, -, hbecomes, -, habandoned⟩ := rows_kept lawful
    (Run.ofActions (Store.act plain) .empty [.opens 0, beginAction])
    (Run.ofActions (Store.act plain) begunStore [dispatchAction, abandonAction])
    (appends_all (by decide +kernel))
  obtain ⟨entry, last, -, -, hlast, hclose, hended, -⟩ := habandoned
    [beginRecord, .laneOp kindLaneDispatched "r" 0] [] "r" "" (by decide +kernel)
  exact ⟨hbecomes, last, hlast, hclose, hended⟩

end PlainWire

end LogicalWorks.Tenant
