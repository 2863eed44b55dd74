import LogicalWorks.Approval.Counted
import LogicalWorks.Task.Store.Live

/-! The count of undecided approvals under a tenant's ceiling, over every run of parks, decisions,
lapses and ordinary steps. -/
namespace LogicalWorks.Approval
open Journal LogicalWorks.Task

namespace Flow

section

variable (formats : Formats) (tenancy : Tenancy) (paths : Set String)

def parksFor (tenant : String) (request : Store.Staged) : Bool :=
  match classifyRecord formats.archive request.record.value with
  | .pending _ => decide (request.record.tenant = tenant)
  | .decision _ | .other => false

def inFlight (flow : Flow) (tenant : String) : Nat :=
  (flow.running.countP fun park => tenancy.owner park.run = tenant) +
    (flow.queue.countP (parksFor formats tenant) + flow.batch.countP (parksFor formats tenant))

/-- An ordinary step's value is no approval record, and a first visit that the count lets pass would
pass beside the parks that are in flight. -/
def Admits (flow : Flow) : Action → Prop
  | .visit run path _ _ =>
    let tenant := tenancy.owner run
    lookupOf flow.index tenant run (stepKey formats.archive tenant path) = .ok none →
      pendingCount flow.index tenant < tenancy.approvalMax tenant →
        pendingCount flow.index tenant + flow.inFlight formats tenancy tenant <
          tenancy.approvalMax tenant
  | .ordinary _ _ _ value => classifyRecord formats.archive value = .other
  | _ => True

def Action.VisitsIn : Action → Prop
  | .visit _ path _ _ => path ∈ paths
  | _ => True

/-- The count is that of the committed approvals without a committed decision, it is under the
ceiling, and what the ceiling refused ran no payload block and wrote nothing. -/
structure Counted (flow : Flow) : Prop where
  count : ∀ tenant, pendingCount flow.index tenant =
    (undecided formats.archive flow.index.runs tenant).ncard
  bound : ∀ tenant, pendingCount flow.index tenant ≤ tenancy.approvalMax tenant
  refused : ∀ number ∈ flow.refused, number ∉ flow.started ∧ number ∉ flow.wrote

structure Sound (flow : Flow) : Prop where
  kept : Kept formats.archive tenancy.owner paths flow.index.runs
  asked : ∀ request ∈ flow.queue ++ flow.batch,
    Rightful formats.archive tenancy.owner paths flow.index.runs request.record
  fresh : ∀ request ∈ flow.batch,
    Store.stepOf flow.index.runs request.record.run (hexOf request.record.key) = none ∧
      (flow.index.staged.get request.record.place).isSome = true
  apart : (flow.batch.map fun request => request.record.place).Nodup
  running : ∀ park ∈ flow.running, park.path ∈ paths
  answering : ∀ answering ∈ flow.answering,
    Store.tenantOf flow.index.runs answering.id.run = some answering.tenant ∧
      Parked formats.archive flow.index.runs answering.id.run
        (hexOf answering.id.key.bytes) answering.pending
  count : ∀ tenant, pendingCount flow.index tenant =
    (undecided formats.archive flow.index.runs tenant).ncard

end

variable {formats : Formats} {tenancy : Tenancy} {paths : Set String} {flow next : Flow}

theorem Sound.beside (sound : flow.Sound formats tenancy paths) (hindex : next.index = flow.index)
    (hbatch : next.batch = flow.batch)
    (hqueue : ∀ request ∈ next.queue, request ∈ flow.queue ∨
      Rightful formats.archive tenancy.owner paths flow.index.runs request.record)
    (hrunning : ∀ park ∈ next.running, park ∈ flow.running ∨ park.path ∈ paths)
    (hanswering : ∀ answering ∈ next.answering, answering ∈ flow.answering ∨
      Store.tenantOf flow.index.runs answering.id.run = some answering.tenant ∧
        Parked formats.archive flow.index.runs answering.id.run
          (hexOf answering.id.key.bytes) answering.pending) :
    next.Sound formats tenancy paths := by
  constructor
  case kept =>
    rw [hindex]
    exact sound.kept
  case asked =>
    intro request hrequest
    rw [hindex]
    rcases List.mem_append.mp hrequest with hin | hin
    · rcases hqueue request hin with hold | hnew
      · exact sound.asked request (List.mem_append_left _ hold)
      · exact hnew
    · exact sound.asked request (List.mem_append_right _ (hbatch ▸ hin))
  case fresh =>
    rw [hindex, hbatch]
    exact sound.fresh
  case apart =>
    rw [hbatch]
    exact sound.apart
  case running =>
    intro park hpark
    exact (hrunning park hpark).elim (sound.running park) id
  case answering =>
    intro answering hin
    rw [hindex]
    exact (hanswering answering hin).elim (sound.answering answering) id
  case count =>
    rw [hindex]
    exact sound.count

theorem parked_of_lookup {index : Store.Index} {tenant : String} {run : RunId} {key : Digest}
    {bytes : Bytes} {pending : PendingRecord}
    (hlookup : lookupOf index tenant run key = .ok (some bytes))
    (hclass : classifyRecord formats.archive bytes = .pending pending) :
    Store.tenantOf index.runs run = some tenant ∧
      Parked formats.archive index.runs run (hexOf key.bytes) pending := by
  unfold lookupOf Store.lookup at hlookup
  unfold Parked Store.tenantOf Store.stepOf
  cases hget : index.runs.get run with
  | none =>
    rw [hget] at hlookup
    cases hlookup
  | some held =>
    rw [hget] at hlookup
    dsimp only at hlookup
    split at hlookup
    · cases hlookup
    · rename_i htenant
      rw [Except.map, Except.ok.injEq, Option.map_eq_some_iff] at hlookup
      obtain ⟨step, hstep, rfl⟩ := hlookup
      exact ⟨by rw [Option.map_some, not_not.mp htenant], step, hstep, hclass⟩

theorem Sound.visit (sound : flow.Sound formats tenancy paths) {run : RunId} {path : String}
    (name : String) (ttl : Nat) (hpath : path ∈ paths) :
    (flow.visit formats tenancy run path name ttl).Sound formats tenancy paths := by
  unfold Flow.visit
  dsimp only
  split
  · exact sound
  · split
    · exact sound
    · rename_i hlookup
      split
      · rename_i pending hclass
        refine sound.beside rfl rfl (fun _ => .inl) (fun _ => .inl) ?_
        intro answering hin
        rcases List.mem_append.mp hin with hold | hnew
        · exact .inl hold
        · rw [List.mem_singleton.mp hnew]
          exact .inr (parked_of_lookup hlookup hclass)
      · exact sound
      · exact sound
    · split
      · exact sound.beside rfl rfl (fun _ => .inl) (fun _ => .inl) (fun _ => .inl)
      · refine sound.beside rfl rfl (fun _ => .inl) ?_ (fun _ => .inl)
        intro park hin
        rcases List.mem_append.mp hin with hold | hnew
        · exact .inl hold
        · rw [List.mem_singleton.mp hnew]
          exact .inr hpath

theorem Sound.finish (sound : flow.Sound formats tenancy paths) (lawful : formats.archive.Lawful)
    (park : Park) (payload : Bytes) (parkedAt : Nat) (definition : Store.StoredDefinition) :
    (flow.finish formats tenancy park payload parkedAt definition).Sound formats tenancy paths := by
  unfold Flow.finish
  dsimp only
  split
  · rename_i hin
    split
    · exact sound.beside rfl rfl (fun _ => .inl) (fun _ h => .inl (List.mem_of_mem_erase h))
        (fun _ => .inl)
    · rename_i bytes hrecord
      refine sound.beside rfl rfl ?_ (fun _ h => .inl (List.mem_of_mem_erase h)) (fun _ => .inl)
      intro request hrequest
      rcases List.mem_append.mp hrequest with hold | hnew
      · exact .inl hold
      · rw [List.mem_singleton.mp hnew]
        right
        obtain ⟨archived, -, hbytes⟩ := Option.bind_eq_some_iff.mp hrecord
        have hclass : classifyRecord formats.archive bytes = .pending ⟨tenancy.owner park.run,
            park.run, park.path, park.name, approvalDigest formats.archive archived, payload,
            parkedAt, park.ttl⟩ := by
          unfold classifyRecord
          rw [lawful.roundTrip hbytes]
        refine ⟨rfl, ?_, ?_⟩
        · intro pending hpending
          rw [appendOf, hclass, RecordClass.pending.injEq] at hpending
          rw [← hpending]
          exact ⟨sound.running park hin, rfl⟩
        · intro decision hdecision
          rw [appendOf, hclass] at hdecision
          cases hdecision
  · exact sound

theorem Sound.ordinary (sound : flow.Sound formats tenancy paths) {value : Bytes}
    (hvalue : classifyRecord formats.archive value = .other) (run : RunId) (path : String)
    (definition : Store.StoredDefinition) :
    (flow.act formats tenancy (.ordinary run path definition value)).Sound formats tenancy
      paths := by
  refine sound.beside rfl rfl ?_ (fun _ => .inl) (fun _ => .inl)
  intro request hrequest
  rcases List.mem_append.mp hrequest with hold | hnew
  · exact .inl hold
  · rw [List.mem_singleton.mp hnew]
    refine .inr ⟨rfl, ?_, ?_⟩
    · intro pending hpending
      rw [appendOf, hvalue] at hpending
      cases hpending
    · intro decision hdecision
      rw [appendOf, hvalue] at hdecision
      cases hdecision

theorem readPending_ok {archive : Archive} {id : ApprovalId} {found : Found}
    {pending : PendingRecord} (h : readPending archive id found = .ok pending) :
    ∃ bytes, found = .ok (some bytes) ∧ classifyRecord archive bytes = .pending pending := by
  unfold readPending at h
  split at h
  · rename_i bytes
    split at h
    · rename_i hclass
      cases h
      exact ⟨bytes, rfl, hclass⟩
    · cases h
    · cases h
  · cases h
  · cases h
  · cases h

theorem Sound.find (sound : flow.Sound formats tenancy paths) (tenant : String)
    (text : List Char) : (flow.find formats tenant text).Sound formats tenancy paths := by
  unfold Flow.find
  split
  · exact sound
  · split
    · exact sound
    · rename_i id _ pending hread
      refine sound.beside rfl rfl (fun _ => .inl) (fun _ => .inl) ?_
      intro answering hin
      rcases List.mem_append.mp hin with hold | hnew
      · exact .inl hold
      · rw [List.mem_singleton.mp hnew]
        obtain ⟨bytes, hlookup, hclass⟩ := readPending_ok hread
        exact .inr (parked_of_lookup hlookup hclass)

theorem Sound.probe (sound : flow.Sound formats tenancy paths) (answering : Answering) :
    (flow.probe formats answering).Sound formats tenancy paths := by
  unfold Flow.probe
  split
  · rename_i hin
    dsimp only
    split
    · exact sound.beside rfl rfl (fun _ => .inl) (fun _ => .inl)
        (fun _ h => .inl (List.mem_of_mem_erase h))
    · refine sound.beside rfl rfl (fun _ => .inl) (fun _ => .inl) ?_
      intro other hother
      rcases List.mem_append.mp hother with hold | hnew
      · exact .inl (List.mem_of_mem_erase hold)
      · rw [List.mem_singleton.mp hnew]
        exact .inr (sound.answering answering hin)
  · exact sound

theorem Sound.answer (sound : flow.Sound formats tenancy paths) (lawful : formats.archive.Lawful)
    (answering : Answering) (decision : Option ApprovalDecision) (now : Nat)
    (definition : Store.StoredDefinition) :
    (flow.answer formats answering decision now definition).Sound formats tenancy paths := by
  unfold Flow.answer
  dsimp only
  split
  · rename_i hin
    split
    · exact sound.beside rfl rfl (fun _ => .inl) (fun _ => .inl)
        (fun _ h => .inl (List.mem_of_mem_erase h))
    · rename_i bytes hbytes
      refine sound.beside rfl rfl ?_ (fun _ => .inl) (fun _ h => .inl (List.mem_of_mem_erase h))
      intro request hrequest
      rcases List.mem_append.mp hrequest with hold | hnew
      · exact .inl hold
      · rw [List.mem_singleton.mp hnew]
        right
        obtain ⟨htenant, hparked⟩ := sound.answering answering hin.1
        obtain ⟨record, -, harchived⟩ := Option.bind_eq_some_iff.mp hbytes
        have hclass : classifyRecord formats.archive bytes = .decision record := by
          unfold classifyRecord
          rw [lawful.roundTrip harchived]
        refine ⟨sound.kept.owned _ _ htenant, ?_, ?_⟩
        · intro pending hpending
          rw [appendOf, hclass] at hpending
          cases hpending
        · intro _ _
          exact ⟨_, answering.pending, hparked, rfl⟩
  · exact sound

theorem Sound.stage (sound : flow.Sound formats tenancy paths) (write : Option Store.Write) :
    (flow.stage write).Sound formats tenancy paths := by
  have hdropped : ∀ request rest, flow.queue = request :: rest →
      ({ flow with queue := rest } : Flow).Sound formats tenancy paths := by
    intro request rest hqueue
    refine sound.beside rfl rfl ?_ (fun _ => .inl) (fun _ => .inl)
    intro other hother
    rw [hqueue]
    exact .inl (List.mem_cons_of_mem _ hother)
  unfold Flow.stage
  split
  · exact sound
  · rename_i request rest hqueue
    have hdrop := hdropped request rest hqueue
    split
    · exact sound
    · split
      · exact hdrop
      · split
        · exact hdrop
        · exact hdrop
        · rename_i howned
          split
          · rename_i written hstaged
            have hfree : flow.index.staged.get request.record.place = none := by
              have hnone := Option.map_eq_none_iff.mp hstaged
              rw [Store.Stored.place, request.record_key]
              exact hnone
            have hplaced : ∀ other, (flow.index.stage request written).staged.get other =
                if other = request.record.place then some request.record.value
                else flow.index.staged.get other := by
              intro other
              rw [Store.Stored.place, request.record_key]
              exact Table.get_insert _ _ _ _
            constructor
            case kept => exact sound.kept
            case asked =>
              intro other hother
              refine sound.asked other ?_
              rw [hqueue]
              simp only [List.mem_append, List.mem_cons] at hother ⊢
              tauto
            case fresh =>
              intro other hother
              rw [hplaced]
              rcases List.mem_append.mp hother with hold | hnew
              · obtain ⟨hstep, hin⟩ := sound.fresh other hold
                refine ⟨hstep, ?_⟩
                split
                · rfl
                · exact hin
              · rw [List.mem_singleton.mp hnew, if_pos rfl]
                refine ⟨?_, rfl⟩
                rw [request.record_key]
                exact (Store.ownedAnswer_none howned).1
            case apart =>
              rw [List.map_append, List.map_singleton, List.nodup_append]
              refine ⟨sound.apart, List.nodup_singleton _, ?_⟩
              intro place hplace last hlast hsame
              obtain ⟨other, hother, rfl⟩ := List.mem_map.mp hplace
              have hin := (sound.fresh other hother).2
              rw [hsame, List.mem_singleton.mp hlast, hfree] at hin
              cases hin
            case running => exact sound.running
            case answering => exact sound.answering
            case count => exact sound.count
          · exact hdrop
          · exact hdrop

theorem Sound.flush (sound : flow.Sound formats tenancy paths) (returned : Bool) :
    (flow.flush returned).Sound formats tenancy paths := by
  unfold Flow.flush
  split
  · exact sound
  · split
    · exact sound.beside rfl rfl (fun _ => .inl) (fun _ => .inl) (fun _ => .inl)
    · refine ⟨sound.kept, ?_, nofun, List.nodup_nil, sound.running, sound.answering, sound.count⟩
      intro request hrequest
      rw [List.append_nil] at hrequest
      exact sound.asked request (List.mem_append_left _ hrequest)

theorem Sound.settle (sound : flow.Sound formats tenancy paths)
    (hdistinct : ∀ tenant, Set.InjOn (decisionKeyFor formats.archive tenant) paths) :
    (flow.settle formats).Sound formats tenancy paths := by
  unfold Flow.settle
  split
  · split
    · exact sound.beside rfl rfl (fun _ => .inl) (fun _ => .inl) (fun _ => .inl)
    · rename_i request rest hbatch
      have hin : request ∈ flow.batch := by
        rw [hbatch]
        exact List.mem_cons_self
      have hright := sound.asked request (List.mem_append_right _ hin)
      have hfresh := (sound.fresh request hin).1
      have hapart := sound.apart
      rw [hbatch, List.map_cons, List.nodup_cons] at hapart
      have hruns : (Store.settle formats.wire request.record flow.index).runs =
          Store.insertStep flow.index.runs request.record := rfl
      constructor
      case kept =>
        rw [hruns]
        exact sound.kept.insertStep hdistinct hright hfresh
      case asked =>
        intro other hother
        rw [hruns]
        refine (sound.asked other ?_).insertStep hfresh
        rw [hbatch]
        simp only [List.mem_append, List.mem_cons] at hother ⊢
        tauto
      case fresh =>
        intro other hother
        have hlater : other ∈ flow.batch := by
          rw [hbatch]
          exact List.mem_cons_of_mem _ hother
        have hne : other.record.place ≠ request.record.place := by
          intro hsame
          exact hapart.1 (hsame ▸ List.mem_map_of_mem hother)
        obtain ⟨hstep, hstaged⟩ := sound.fresh other hlater
        refine ⟨?_, ?_⟩
        · rw [hruns, Store.stepOf_insertStep, if_neg]
          · exact hstep
          · rintro ⟨hrun, hkey⟩
            exact hne (Prod.ext hrun hkey)
        · change ((flow.index.staged.remove request.record.place).get other.record.place).isSome
          rw [Table.get_remove, if_neg hne]
          exact hstaged
      case apart => exact hapart.2
      case running => exact sound.running
      case answering =>
        intro answering hanswering
        obtain ⟨htenant, hparked⟩ := sound.answering answering hanswering
        refine ⟨?_, (parked_insertStep hfresh).mpr (.inl hparked)⟩
        rw [hruns, tenantOf_insertStep_eq (sound.kept.owner_eq hright)]
        split
        · rename_i hrun
          rw [sound.kept.owner_eq hright answering.tenant (hrun ▸ htenant)]
        · exact htenant
      case count => exact sound.kept.count hdistinct hright hfresh sound.count
  · exact sound

theorem Sound.act (sound : flow.Sound formats tenancy paths) (lawful : formats.archive.Lawful)
    (hdistinct : ∀ tenant, Set.InjOn (decisionKeyFor formats.archive tenant) paths)
    {action : Action} (hpaths : action.VisitsIn paths) (hadmits : flow.Admits formats tenancy action) :
    (flow.act formats tenancy action).Sound formats tenancy paths := by
  cases action with
  | visit run path name ttl => exact sound.visit name ttl hpaths
  | finish park payload parkedAt definition => exact sound.finish lawful park payload parkedAt definition
  | fail park =>
    exact sound.beside rfl rfl (fun _ => .inl) (fun _ h => .inl (List.mem_of_mem_erase h))
      (fun _ => .inl)
  | ordinary run path definition value => exact sound.ordinary hadmits run path definition
  | find tenant text => exact sound.find tenant text
  | probe answering => exact sound.probe answering
  | answer answering decision now definition =>
    exact sound.answer lawful answering decision now definition
  | stage write => exact sound.stage write
  | flush returned => exact sound.flush returned
  | settle => exact sound.settle hdistinct

section Room

def Room (formats : Formats) (tenancy : Tenancy) (flow : Flow) : Prop :=
  ∀ tenant, pendingCount flow.index tenant + flow.inFlight formats tenancy tenant ≤
    tenancy.approvalMax tenant

theorem Room.of_le (room : flow.Room formats tenancy)
    (h : ∀ tenant, pendingCount next.index tenant + next.inFlight formats tenancy tenant ≤
      pendingCount flow.index tenant + flow.inFlight formats tenancy tenant) :
    next.Room formats tenancy :=
  fun tenant => (h tenant).trans (room tenant)

theorem countP_erase_le {α : Type} [BEq α] [LawfulBEq α] (keep : α → Bool) (row : α)
    (rows : List α) : (rows.erase row).countP keep ≤ rows.countP keep :=
  List.erase_sublist.countP_le

theorem Room.visit (room : flow.Room formats tenancy) {run : RunId} {path name : String} {ttl : Nat}
    (hadmits : flow.Admits formats tenancy (.visit run path name ttl)) :
    (flow.visit formats tenancy run path name ttl).Room formats tenancy := by
  unfold Flow.visit
  dsimp only
  split
  · exact room
  · split
    · exact room
    · split
      · exact room
      · exact room
      · exact room
    · rename_i hlookup
      split
      · exact room
      · rename_i hunder
        intro tenant
        unfold inFlight
        dsimp only
        rw [List.countP_append, List.countP_singleton]
        by_cases howner : tenancy.owner run = tenant
        · have hroom := hadmits hlookup (Nat.not_le.mp hunder)
          rw [howner] at hroom
          unfold inFlight at hroom
          rw [if_pos (decide_eq_true howner)]
          omega
        · have hroom := room tenant
          unfold inFlight at hroom
          rw [if_neg (by simpa using howner)]
          omega

theorem Room.finish (room : flow.Room formats tenancy) (lawful : formats.archive.Lawful)
    (park : Park) (payload : Bytes) (parkedAt : Nat) (definition : Store.StoredDefinition) :
    (flow.finish formats tenancy park payload parkedAt definition).Room formats tenancy := by
  unfold Flow.finish
  dsimp only
  split
  · rename_i hin
    split
    · refine room.of_le ?_
      intro tenant
      have hless := countP_erase_le (fun park => decide (tenancy.owner park.run = tenant)) park
        flow.running
      unfold inFlight
      dsimp only
      omega
    · rename_i bytes hrecord
      refine room.of_le ?_
      intro tenant
      obtain ⟨archived, -, hbytes⟩ := Option.bind_eq_some_iff.mp hrecord
      unfold inFlight
      rw [List.countP_append, List.countP_singleton, List.countP_erase]
      have hsome : parksFor formats tenant (appendOf park.run (tenancy.owner park.run) park.path
          (stepKey formats.archive (tenancy.owner park.run) park.path) definition bytes) =
            decide (tenancy.owner park.run = tenant) := by
        unfold parksFor classifyRecord appendOf
        dsimp only
        rw [lawful.roundTrip hbytes]
      rw [hsome]
      by_cases howner : tenancy.owner park.run = tenant
      · have hpos : 0 < flow.running.countP fun park => decide (tenancy.owner park.run = tenant) :=
          List.countP_pos_iff.mpr ⟨park, hin, by simpa using howner⟩
        simp only [howner, hin]
        simp
        omega
      · simp only [howner]
        simp
  · exact room

theorem Room.append (room : flow.Room formats tenancy) {request : Store.Staged}
    (hindex : next.index = flow.index) (hrunning : next.running = flow.running)
    (hqueue : next.queue = flow.queue ++ [request]) (hbatch : next.batch = flow.batch)
    (hrequest : ∀ pending, classifyRecord formats.archive request.record.value ≠ .pending pending) :
    next.Room formats tenancy := by
  refine room.of_le ?_
  intro tenant
  have hnone : parksFor formats tenant request = false := by
    unfold parksFor
    cases hclass : classifyRecord formats.archive request.record.value with
    | pending pending => exact absurd hclass (hrequest pending)
    | decision decision => rfl
    | other => rfl
  unfold inFlight
  rw [hindex, hrunning, hqueue, hbatch, List.countP_append, List.countP_singleton, hnone]
  simp

theorem Room.answer (room : flow.Room formats tenancy) (lawful : formats.archive.Lawful)
    (answering : Answering) (decision : Option ApprovalDecision) (now : Nat)
    (definition : Store.StoredDefinition) :
    (flow.answer formats answering decision now definition).Room formats tenancy := by
  unfold Flow.answer
  dsimp only
  split
  · split
    · exact room
    · rename_i bytes hbytes
      obtain ⟨record, -, harchived⟩ := Option.bind_eq_some_iff.mp hbytes
      refine room.append rfl rfl rfl rfl ?_
      intro pending hpending
      unfold classifyRecord appendOf at hpending
      dsimp only at hpending
      rw [lawful.roundTrip harchived] at hpending
      cases hpending
  · exact room

theorem Room.stage (room : flow.Room formats tenancy) (write : Option Store.Write) :
    (flow.stage write).Room formats tenancy := by
  have hdropped : ∀ request rest, flow.queue = request :: rest →
      ({ flow with queue := rest } : Flow).Room formats tenancy := by
    intro request rest hqueue
    refine room.of_le ?_
    intro tenant
    unfold inFlight
    rw [hqueue, List.countP_cons]
    dsimp only
    omega
  unfold Flow.stage
  split
  · exact room
  · rename_i request rest hqueue
    have hdrop := hdropped request rest hqueue
    split
    · exact room
    · split
      · exact hdrop
      · split
        · exact hdrop
        · exact hdrop
        · split
          · refine room.of_le ?_
            intro tenant
            have hcount : ∀ written, pendingCount (flow.index.stage request written) tenant =
                pendingCount flow.index tenant := fun _ => rfl
            unfold inFlight
            dsimp only
            rw [hqueue, hcount, List.countP_cons, List.countP_append, List.countP_singleton]
            omega
          · exact hdrop
          · exact hdrop

theorem Room.settle (room : flow.Room formats tenancy) :
    (flow.settle formats).Room formats tenancy := by
  unfold Flow.settle
  split
  · split
    · exact room
    · rename_i request rest hbatch
      refine room.of_le ?_
      intro tenant
      unfold inFlight
      dsimp only
      rw [hbatch, List.countP_cons, pendingCount_settle]
      cases hclass : classifyRecord formats.archive request.record.value with
      | pending pending =>
        have hparks : parksFor formats tenant request =
            decide (request.record.tenant = tenant) := by
          unfold parksFor
          rw [hclass]
        rw [hparks]
        dsimp only [countAfter]
        by_cases htenant : request.record.tenant = tenant
        · rw [if_pos htenant.symm, if_pos (decide_eq_true htenant)]
          omega
        · rw [if_neg (Ne.symm htenant)]
          omega
      | decision decision =>
        dsimp only [countAfter]
        split <;> omega
      | other =>
        dsimp only [countAfter]
        split <;> omega
  · exact room

theorem Room.act (room : flow.Room formats tenancy) (lawful : formats.archive.Lawful)
    {action : Action} (hadmits : flow.Admits formats tenancy action) :
    (flow.act formats tenancy action).Room formats tenancy := by
  cases action with
  | visit run path name ttl => exact room.visit hadmits
  | finish park payload parkedAt definition => exact room.finish lawful park payload parkedAt definition
  | fail park =>
    refine room.of_le ?_
    intro tenant
    have hless := countP_erase_le (fun park => decide (tenancy.owner park.run = tenant)) park
      flow.running
    unfold inFlight Flow.act
    dsimp only
    omega
  | ordinary run path definition value =>
    refine room.append rfl rfl rfl rfl ?_
    intro pending hpending
    rw [appendOf, show classifyRecord formats.archive value = .other from hadmits] at hpending
    cases hpending
  | find tenant text =>
    unfold Flow.act Flow.find
    dsimp only
    split
    · exact room
    · split <;> exact room
  | probe answering =>
    unfold Flow.act Flow.probe
    dsimp only
    split
    · split <;> exact room
    · exact room
  | answer answering decision now definition =>
    exact room.answer lawful answering decision now definition
  | stage write => exact room.stage write
  | flush returned =>
    unfold Flow.act Flow.flush
    dsimp only
    split
    · exact room
    · split
      · exact room
      · refine room.of_le ?_
        intro tenant
        unfold inFlight
        simp
  | settle => exact room.settle

end Room

section Numbers

structure Numbered (flow : Flow) : Prop where
  below : ∀ number, number ∈ flow.refused ∨ number ∈ flow.started → number < flow.next
  apart : ∀ number ∈ flow.refused, number ∉ flow.started
  wrote : ∀ number ∈ flow.wrote, number ∈ flow.started
  running : ∀ park ∈ flow.running, park.number ∈ flow.started

theorem Numbered.beside (numbered : flow.Numbered) (hnext : next.next = flow.next)
    (hrefused : next.refused = flow.refused) (hstarted : next.started = flow.started)
    (hwrote : next.wrote = flow.wrote) (hrunning : ∀ park ∈ next.running, park ∈ flow.running) :
    next.Numbered := by
  refine ⟨?_, ?_, ?_, ?_⟩
  · rw [hrefused, hstarted, hnext]
    exact numbered.below
  · rw [hrefused, hstarted]
    exact numbered.apart
  · rw [hwrote, hstarted]
    exact numbered.wrote
  · intro park hpark
    rw [hstarted]
    exact numbered.running park (hrunning park hpark)

theorem Numbered.visit (numbered : flow.Numbered) (run : RunId) (path name : String) (ttl : Nat) :
    (flow.visit formats tenancy run path name ttl).Numbered := by
  unfold Flow.visit
  dsimp only
  split
  · exact numbered
  · split
    · exact numbered
    · split
      · exact numbered.beside rfl rfl rfl rfl fun _ => id
      · exact numbered
      · exact numbered
    · have hfresh : flow.next ∉ flow.refused ∧ flow.next ∉ flow.started := by
        constructor
        · exact fun h => Nat.lt_irrefl _ (numbered.below _ (.inl h))
        · exact fun h => Nat.lt_irrefl _ (numbered.below _ (.inr h))
      split
      · refine ⟨?_, ?_, numbered.wrote, numbered.running⟩
        · rintro number (hrefused | hstarted)
          · rcases List.mem_append.mp hrefused with hold | hnew
            · exact Nat.lt_succ_of_lt (numbered.below number (.inl hold))
            · rw [List.mem_singleton.mp hnew]
              exact Nat.lt_succ_self _
          · exact Nat.lt_succ_of_lt (numbered.below number (.inr hstarted))
        · intro number hrefused
          rcases List.mem_append.mp hrefused with hold | hnew
          · exact numbered.apart number hold
          · rw [List.mem_singleton.mp hnew]
            exact hfresh.2
      · refine ⟨?_, ?_, ?_, ?_⟩
        · rintro number (hrefused | hstarted)
          · exact Nat.lt_succ_of_lt (numbered.below number (.inl hrefused))
          · rcases List.mem_append.mp hstarted with hold | hnew
            · exact Nat.lt_succ_of_lt (numbered.below number (.inr hold))
            · rw [List.mem_singleton.mp hnew]
              exact Nat.lt_succ_self _
        · intro number hrefused hstarted
          rcases List.mem_append.mp hstarted with hold | hnew
          · exact numbered.apart number hrefused hold
          · rw [List.mem_singleton.mp hnew] at hrefused
            exact hfresh.1 hrefused
        · intro number hwrote
          exact List.mem_append_left _ (numbered.wrote number hwrote)
        · intro park hpark
          rcases List.mem_append.mp hpark with hold | hnew
          · exact List.mem_append_left _ (numbered.running park hold)
          · rw [List.mem_singleton.mp hnew]
            exact List.mem_append_right _ (List.mem_singleton_self _)

theorem Numbered.finish (numbered : flow.Numbered) (park : Park) (payload : Bytes) (parkedAt : Nat)
    (definition : Store.StoredDefinition) :
    (flow.finish formats tenancy park payload parkedAt definition).Numbered := by
  unfold Flow.finish
  dsimp only
  split
  · rename_i hin
    split
    · exact numbered.beside rfl rfl rfl rfl fun _ => List.mem_of_mem_erase
    · refine ⟨numbered.below, numbered.apart, ?_, ?_⟩
      · intro number hwrote
        rcases List.mem_append.mp hwrote with hold | hnew
        · exact numbered.wrote number hold
        · rw [List.mem_singleton.mp hnew]
          exact numbered.running park hin
      · intro other hother
        exact numbered.running other (List.mem_of_mem_erase hother)
  · exact numbered

theorem Numbered.act (numbered : flow.Numbered) (action : Action) :
    (flow.act formats tenancy action).Numbered := by
  have hsame : ∀ next : Flow, next.next = flow.next → next.refused = flow.refused →
      next.started = flow.started → next.wrote = flow.wrote → next.running = flow.running →
      next.Numbered := by
    intro next hnext hrefused hstarted hwrote hrunning
    exact numbered.beside hnext hrefused hstarted hwrote (by rw [hrunning]; exact fun _ => id)
  cases action with
  | visit run path name ttl => exact numbered.visit run path name ttl
  | finish park payload parkedAt definition => exact numbered.finish park payload parkedAt definition
  | fail park => exact numbered.beside rfl rfl rfl rfl fun _ => List.mem_of_mem_erase
  | ordinary run path definition value => exact hsame _ rfl rfl rfl rfl rfl
  | find tenant text =>
    unfold Flow.act Flow.find
    dsimp only
    split
    · exact numbered
    · split <;> exact hsame _ rfl rfl rfl rfl rfl
  | probe answering =>
    unfold Flow.act Flow.probe
    dsimp only
    split
    · split <;> exact hsame _ rfl rfl rfl rfl rfl
    · exact numbered
  | answer answering decision now definition =>
    unfold Flow.act Flow.answer
    dsimp only
    split
    · split <;> exact hsame _ rfl rfl rfl rfl rfl
    · exact numbered
  | stage write =>
    unfold Flow.act Flow.stage
    dsimp only
    repeat' split
    all_goals exact hsame _ rfl rfl rfl rfl rfl
  | flush returned =>
    unfold Flow.act Flow.flush
    dsimp only
    repeat' split
    all_goals exact hsame _ rfl rfl rfl rfl rfl
  | settle =>
    unfold Flow.act Flow.settle
    dsimp only
    repeat' split
    all_goals exact hsame _ rfl rfl rfl rfl rfl

end Numbers

section Start

theorem undecided_start (tenant : String) :
    undecided formats.archive (Flow.start formats).index.runs tenant = ∅ := by
  ext step
  simp [mem_undecided, Flow.start, Store.tenantOf, Table.get, Table.empty, Table.find]

theorem Sound.start : (Flow.start formats).Sound formats tenancy paths where
  kept := by
    refine ⟨?_, ?_, ?_, ?_⟩
    · intro run tenant howned
      cases howned
    · rintro run key pending ⟨held, hstep, -⟩
      cases hstep
    · rintro run key ⟨held, decision, hstep, -⟩
      cases hstep
    · intro tenant
      rw [undecided_start]
      exact Set.finite_empty
  asked := by
    intro request hrequest
    cases hrequest
  fresh := by
    intro request hrequest
    cases hrequest
  apart := List.nodup_nil
  running := by
    intro park hpark
    cases hpark
  answering := by
    intro answering hanswering
    cases hanswering
  count := by
    intro tenant
    rw [undecided_start, Set.ncard_empty]
    rfl

theorem Room.start : (Flow.start formats).Room formats tenancy := by
  intro tenant
  exact Nat.zero_le _

theorem Numbered.start : (Flow.start formats).Numbered where
  below := by
    intro number hnumber
    rcases hnumber with hnumber | hnumber
    · cases hnumber
    · cases hnumber
  apart := by
    intro number hnumber
    cases hnumber
  wrote := by
    intro number hnumber
    cases hnumber
  running := by
    intro park hpark
    cases hpark

end Start

/-- Where ordinary steps record no approval records and a park passes the ceiling only beside parks
in flight that fit with it, the count is right, it stays under the ceiling, and what the ceiling
refuses does nothing. -/
theorem pending_counted (lawful : formats.archive.Lawful)
    (hdistinct : ∀ tenant, Set.InjOn (decisionKeyFor formats.archive tenant) paths)
    {trace : List (Flow × Action)} {final : Flow}
    (run : Run (Flow.Step formats tenancy) (Flow.start formats) trace final)
    (hpaths : ∀ taken ∈ trace, taken.2.VisitsIn paths)
    (hadmits : ∀ taken ∈ trace, taken.1.Admits formats tenancy taken.2) :
    final.Counted formats tenancy := by
  have hfinal : final.Sound formats tenancy paths ∧ final.Room formats tenancy ∧
      final.Numbered := by
    refine @Run.invariant _ _ _ _ _ _ (fun flow => flow.Sound formats tenancy paths ∧
      flow.Room formats tenancy ∧ flow.Numbered) (fun flow action => action.VisitsIn paths ∧
      flow.Admits formats tenancy action) run
      ⟨Sound.start, Room.start, Numbered.start⟩ ?_
      (fun taken htaken => ⟨hpaths taken htaken, hadmits taken htaken⟩)
    rintro flow action next ⟨sound, room, numbered⟩ ⟨hpath, hadmit⟩ hstep
    rw [← hstep]
    exact ⟨sound.act lawful hdistinct hpath hadmit, room.act lawful hadmit, numbered.act action⟩
  obtain ⟨sound, room, numbered⟩ := hfinal
  refine ⟨sound.count, ?_, ?_⟩
  · intro tenant
    exact (Nat.le_add_right _ _).trans (room tenant)
  · intro number hrefused
    have hnot := numbered.apart number hrefused
    exact ⟨hnot, fun hwrote => hnot (numbered.wrote number hwrote)⟩

end Flow

end LogicalWorks.Approval

/-! Two runs park at once under a ceiling of one. -/
namespace LogicalWorks.Approval
open Journal LogicalWorks.Task

namespace Race

def hash (bytes : Bytes) : Digest := Digest.fromBytes bytes.reverse

def parked (run : RunId) : PendingRecord :=
  ⟨"acme", run, "a", "ship", hashFramed hash [utf8 "lgwks.bot/approval.v1", [7]], [7], 0, 10⟩

def archive : Archive where
  hash
  toRecord record :=
    if record = .pending (parked 1) then some [1]
    else if record = .pending (parked 2) then some [2] else none
  fromRecord bytes :=
    if bytes = [1] then some (.pending (parked 1))
    else if bytes = [2] then some (.pending (parked 2)) else none
  payloadToRecord payload := some payload

theorem lawful : archive.Lawful where
  roundTrip := by
    intro record bytes h
    unfold archive at h ⊢
    dsimp only at h ⊢
    split at h
    · rename_i hfirst
      cases h
      rw [if_pos rfl, hfirst]
    · split at h
      · rename_i hsecond
        cases h
        rw [if_neg (by decide), if_pos rfl, hsecond]
      · cases h

def formats : Formats where
  archive
  wire := ⟨hash, fun _ => none, fun _ => none,
    fun bytes => (archive.fromRecord bytes).map ApprovalRecord.tag⟩
  reads _ := rfl

def tenancy : Tenancy where
  owner _ := "acme"
  approvalMax _ := 1

def definition : Store.StoredDefinition := ⟨"flow", 1, [], 0, "rkyv"⟩

def park (number : Nat) (run : RunId) : Park := ⟨number, run, "a", "ship", 10⟩

def write : Store.Write := ⟨[], Digest.fromBytes [], 0⟩

def alone : List Flow.Action :=
  [.visit 1 "a" "ship" 10, .finish (park 0 1) [7] 0 definition, .stage (some write), .flush true,
    .settle]

def together : List Flow.Action :=
  [.visit 1 "a" "ship" 10, .visit 2 "a" "ship" 10, .finish (park 0 1) [7] 0 definition,
    .finish (park 1 2) [7] 0 definition, .stage (some write), .stage (some write), .flush true,
    .settle, .settle]

theorem pending_counted_alone :
    (alone.foldl (Flow.act formats tenancy) (Flow.start formats)).Counted formats tenancy := by
  have hrun : Run (Flow.Step formats tenancy) (Flow.start formats)
      (traceOf (Flow.act formats tenancy) (Flow.start formats) alone)
      (alone.foldl (Flow.act formats tenancy) (Flow.start formats)) := Run.ofActions _ _ _
  refine @Flow.pending_counted formats tenancy {"a"} lawful ?_ _ _ hrun ?_ ?_
  · exact fun tenant => Set.injOn_singleton _ _
  · intro taken htaken
    simp only [alone, traceOf, List.mem_cons, List.not_mem_nil, or_false] at htaken
    rcases htaken with rfl | rfl | rfl | rfl | rfl
    · exact rfl
    all_goals trivial
  · intro taken htaken
    simp only [alone, traceOf, List.mem_cons, List.not_mem_nil, or_false] at htaken
    rcases htaken with rfl | rfl | rfl | rfl | rfl
    · exact fun _ _ => Nat.one_pos
    all_goals trivial

/-- Both are counted, and the ceiling is one. -/
theorem ceiling_passed_together :
    ∃ trace final, Run (Flow.Step formats tenancy) (Flow.start formats) trace final ∧
      ¬ final.Counted formats tenancy := by
  refine ⟨_, together.foldl (Flow.act formats tenancy) (Flow.start formats), Run.ofActions _ _ _, ?_⟩
  intro hcounted
  have hcount : pendingCount
      (together.foldl (Flow.act formats tenancy) (Flow.start formats)).index "acme" = 2 := by
    decide +kernel
  have hbound := hcounted.bound "acme"
  rw [hcount] at hbound
  exact absurd hbound (by decide)

end Race

end LogicalWorks.Approval
