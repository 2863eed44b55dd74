import LogicalWorks.Approval.Exchange
import LogicalWorks.Lib.Run

/-! What any run of visits, decisions and lapses keeps: one record under each key, which every later
reader finds. -/
namespace LogicalWorks.Approval
open Journal LogicalWorks.Task

namespace World

section Grown

structure Grown (before after : World) : Prop where
  commits : before.commits <+: after.commits
  log : before.log <+: after.log

theorem Grown.refl (world : World) : world.Grown world :=
  ⟨List.prefix_refl _, List.prefix_refl _⟩

theorem Grown.trans {first middle last : World} (left : first.Grown middle)
    (right : middle.Grown last) : first.Grown last :=
  ⟨left.commits.trans right.commits, left.log.trans right.log⟩

variable {before after world : World} {place : Place} {bytes : Bytes}

theorem Grown.held (grown : before.Grown after) (h : before.held place = some bytes) :
    after.held place = some bytes := by
  obtain ⟨more, hmore⟩ := grown.commits
  obtain ⟨commit, hfind, hbytes⟩ := Option.map_eq_some_iff.mp h
  unfold World.held
  rw [← hmore, List.find?_append, hfind, Option.some_or, Option.map_some, hbytes]

theorem grown_put (world : World) (commit : Commit) : world.Grown (world.put commit) := by
  unfold put
  split
  · exact ⟨List.prefix_append _ _, List.prefix_refl _⟩
  · exact Grown.refl world

theorem held_put_self {commit : Commit} (h : world.held commit.place = none) :
    (world.put commit).held commit.place = some commit.bytes := by
  have hnone : world.commits.find? (fun other => other.place = commit.place) = none :=
    Option.map_eq_none_iff.mp h
  unfold put
  rw [if_pos h]
  unfold World.held
  rw [List.find?_append, hnone]
  simp

theorem nodup_put (commit : Commit) (h : (world.commits.map Commit.place).Nodup) :
    ((world.put commit).commits.map Commit.place).Nodup := by
  unfold put
  split
  · rename_i hnone
    rw [List.map_append, List.map_singleton, List.nodup_append]
    refine ⟨h, List.nodup_singleton _, ?_⟩
    intro place hplace last hlast hsame
    obtain ⟨other, hother, rfl⟩ := List.mem_map.mp hplace
    have hfind := List.find?_eq_none.mp (Option.map_eq_none_iff.mp hnone) other hother
    rw [List.mem_singleton.mp hlast] at hsame
    exact hfind (by simpa using hsame)
  · exact h

theorem lookup_ok {owner : RunId → String} {env : Env} {tenant : String} {run : RunId}
    {key : Digest} {stored : Option Bytes} (h : world.lookup owner env tenant run key = .ok stored) :
    owner run = tenant ∧ stored = world.held (run, key) := by
  unfold lookup at h
  split at h
  · cases h
  · split at h
    · cases h
    · rename_i howner
      cases h
      exact ⟨not_not.mp howner, rfl⟩

inductive Appends (world : World) (commit : Commit) :
    Except Task.StoreError Store.Appended × World → Prop where
  | refused (cause : Task.StoreError) (after : World)
      (hafter : after = world ∨ after = world.put commit) : Appends world commit (.error cause, after)
  | recorded (hnone : world.held commit.place = none) :
      Appends world commit (.ok .recorded, world.put commit)
  | repeated (hheld : world.held commit.place = some commit.bytes) :
      Appends world commit (.ok .alreadyRecorded, world)
  | conflicting (other : Bytes) (hheld : world.held commit.place = some other) :
      Appends world commit (.ok .conflicting, world)

theorem appends (owner : RunId → String) (world : World) (env : Env) (tenant : String)
    (commit : Commit) : world.Appends commit (world.append owner env tenant commit) := by
  unfold append
  split
  · exact .refused _ _ (.inl rfl)
  · split
    · split
      · exact .refused _ _ (.inr rfl)
      · exact .refused _ _ (.inl rfl)
    · split
      · rename_i hnone
        exact .recorded hnone
      · rename_i bytes hheld
        split
        · rename_i hsame
          exact .repeated (hsame ▸ hheld)
        · exact .conflicting bytes hheld

end Grown

section Facts

variable (archive : Archive) (owner : RunId → String)

def Parked (world : World) (id : ApprovalId) (pending : PendingRecord) : Prop :=
  ∃ bytes, world.held (id.run, id.key) = some bytes ∧
    classifyRecord archive bytes = .pending pending

def Answers (world : World) (id : ApprovalId) (pending : PendingRecord) (record : DecisionRecord) :
    Prop :=
  world.Parked archive id pending ∧ ∃ bytes,
    world.held (slot archive owner id.run pending) = some bytes ∧
      classifyRecord archive bytes = .decision record ∧
      record.pendingKeyHex = hexOf id.key.bytes

def Lapsed (world : World) (id : ApprovalId) : Prop :=
  ∃ pending record, world.Answers archive owner id pending record ∧ record.expired = true

def Heard (world : World) (since : Nat) (id : ApprovalId) (record : DecisionRecord) : Prop :=
  ∃ place < since, ∃ number, world.log[place]? = some (.accepted number id record)

def follows (id : ApprovalId) (pending : PendingRecord) (record : DecisionRecord) : Outcome :=
  if record.approved then .approved pending.digest pending.payload record.by_ else .denied id

variable {archive owner} {before after world : World} {id : ApprovalId} {pending other : PendingRecord}
  {record : DecisionRecord}

theorem Parked.mono (grown : before.Grown after) (h : before.Parked archive id pending) :
    after.Parked archive id pending := by
  obtain ⟨bytes, hheld, hclass⟩ := h
  exact ⟨bytes, grown.held hheld, hclass⟩

theorem Parked.unique (h : world.Parked archive id pending) (hother : world.Parked archive id other) :
    pending = other := by
  obtain ⟨bytes, hheld, hclass⟩ := h
  obtain ⟨_, hotherHeld, hotherClass⟩ := hother
  rw [hheld, Option.some.injEq] at hotherHeld
  rw [← hotherHeld, hclass, RecordClass.pending.injEq] at hotherClass
  exact hotherClass

theorem Answers.mono (grown : before.Grown after)
    (h : before.Answers archive owner id pending record) :
    after.Answers archive owner id pending record := by
  obtain ⟨hparked, bytes, hheld, hrest⟩ := h
  exact ⟨hparked.mono grown, bytes, grown.held hheld, hrest⟩

theorem Answers.unique {found : DecisionRecord} (h : world.Answers archive owner id pending record)
    (hother : world.Answers archive owner id other found) : pending = other ∧ record = found := by
  obtain ⟨hparked, bytes, hheld, hclass, -⟩ := h
  obtain ⟨hotherParked, _, hotherHeld, hotherClass, -⟩ := hother
  have hsame := hparked.unique hotherParked
  rw [← hsame, hheld, Option.some.injEq] at hotherHeld
  rw [← hotherHeld, hclass, RecordClass.decision.injEq] at hotherClass
  exact ⟨hsame, hotherClass⟩

theorem Lapsed.mono (grown : before.Grown after) (h : before.Lapsed archive owner id) :
    after.Lapsed archive owner id := by
  obtain ⟨pending, record, hanswers, hexpired⟩ := h
  exact ⟨pending, record, hanswers.mono grown, hexpired⟩

theorem heard_iff (grown : before.Grown after) {since : Nat} (h : since ≤ before.log.length) :
    after.Heard since id record ↔ before.Heard since id record := by
  obtain ⟨more, hmore⟩ := grown.log
  have hsame : ∀ place < since, after.log[place]? = before.log[place]? := by
    intro place hplace
    rw [← hmore, List.getElem?_append_left (by omega)]
  constructor
  · rintro ⟨place, hplace, number, hevent⟩
    exact ⟨place, hplace, number, by rw [← hsame place hplace]; exact hevent⟩
  · rintro ⟨place, hplace, number, hevent⟩
    exact ⟨place, hplace, number, by rw [hsame place hplace]; exact hevent⟩

end Facts

end World

section Sound

variable (archive : Archive) (owner : RunId → String)

def Call.Sound (world : World) (number : Nat) : Call → Prop
  | .visiting visit => visit.since ≤ world.log.length
  | .inBlock visit | .recording visit _ _ => visit.since ≤ world.log.length ∧
      ∀ record, ¬ world.Heard visit.since (visit.id archive owner) record
  | .resuming visit pending => visit.since ≤ world.log.length ∧
      world.Parked archive (visit.id archive owner) pending
  | .undecided visit pending => visit.since ≤ world.log.length ∧
      world.Parked archive (visit.id archive owner) pending ∧
      ∀ record, ¬ world.Heard visit.since (visit.id archive owner) record
  | .lapsing visit pending bytes => visit.since ≤ world.log.length ∧
      world.Parked archive (visit.id archive owner) pending ∧
      (∀ record, ¬ world.Heard visit.since (visit.id archive owner) record) ∧
      archive.toRecord (.decision (lapseRecord (visit.id archive owner).key pending)) = some bytes
  | .conflicted visit pending => visit.since ≤ world.log.length ∧
      world.Parked archive (visit.id archive owner) pending ∧
      (∀ record, ¬ world.Heard visit.since (visit.id archive owner) record) ∧
      ∃ bytes, world.held (slot archive owner visit.run pending) = some bytes
  | .asking _ _ _ => True
  | .found tenant id _ pending | .unblocked tenant id _ pending =>
    owner id.run = tenant ∧ world.Parked archive id pending
  | .answering tenant id pending record bytes =>
    owner id.run = tenant ∧ world.Parked archive id pending ∧
    archive.toRecord (.decision record) = some bytes ∧
    record.pendingKeyHex = hexOf id.key.bytes ∧ record.digest = pending.digest
  | .confirming tenant id pending record bytes =>
    owner id.run = tenant ∧ world.Answers archive owner id pending record ∧
    record.digest = pending.digest ∧ record.expired = false ∧
    ⟨slot archive owner id.run pending, bytes, .answer number⟩ ∈ world.commits

structure Visit.Ended (world : World) (visit : Visit) (outcome : Outcome) : Prop where
  since : visit.since ≤ world.log.length
  approved : ∀ digest payload by_, outcome = .approved digest payload by_ → ∃ pending record,
    world.Answers archive owner (visit.id archive owner) pending record ∧ record.approved = true ∧
      record.expired = false ∧ record.digest = pending.digest ∧ digest = pending.digest ∧
      payload = pending.payload
  expired : ∀ id, outcome = .expired id → world.Lapsed archive owner (visit.id archive owner)
  followed : visit.ttl ≠ 0 → ∀ record,
    world.Heard visit.since (visit.id archive owner) record →
      (∃ cause, outcome = .store cause) ∨ ∃ pending,
        world.Answers archive owner (visit.id archive owner) pending record ∧
          outcome = World.follows (visit.id archive owner) pending record

def Event.Sound (world : World) : Event → Prop
  | .accepted number id record => ∃ pending bytes,
      world.Answers archive owner id pending record ∧ record.digest = pending.digest ∧
        record.expired = false ∧
        ⟨slot archive owner id.run pending, bytes, .answer number⟩ ∈ world.commits
  | .refused _ _ _ => True
  | .ended _ visit outcome => visit.Ended archive owner world outcome

structure World.Sound (world : World) : Prop where
  places : (world.commits.map Commit.place).Nodup
  calls : ∀ number call, world.calls.get number = some call →
    number < world.next ∧ call.Sound archive owner world number
  events : ∀ event ∈ world.log, event.Sound archive owner world ∧ event.number < world.next ∧
    world.calls.get event.number = none
  once : (world.log.map Event.number).Nodup

end Sound

section Steps

variable {archive : Archive} {owner : RunId → String} {world after : World} {number : Nat}
  {call old : Call}

theorem Call.Sound.mono (grown : world.Grown after) (h : call.Sound archive owner world number) :
    call.Sound archive owner after number := by
  have hlog : ∀ {since : Nat}, since ≤ world.log.length → since ≤ after.log.length :=
    fun hsince => hsince.trans grown.log.length_le
  have hunheard : ∀ {since : Nat} {id : ApprovalId}, since ≤ world.log.length →
      (∀ record, ¬ world.Heard since id record) → ∀ record, ¬ after.Heard since id record := by
    intro since id hsince hnone record hheard
    exact hnone record ((World.heard_iff grown hsince).mp hheard)
  cases call with
  | visiting visit => exact hlog h
  | inBlock visit => exact ⟨hlog h.1, hunheard h.1 h.2⟩
  | recording visit pending bytes => exact ⟨hlog h.1, hunheard h.1 h.2⟩
  | resuming visit pending => exact ⟨hlog h.1, h.2.mono grown⟩
  | undecided visit pending => exact ⟨hlog h.1, h.2.1.mono grown, hunheard h.1 h.2.2⟩
  | lapsing visit pending bytes =>
    exact ⟨hlog h.1, h.2.1.mono grown, hunheard h.1 h.2.2.1, h.2.2.2⟩
  | conflicted visit pending =>
    obtain ⟨hsince, hparked, hnone, bytes, hheld⟩ := h
    exact ⟨hlog hsince, hparked.mono grown, hunheard hsince hnone, bytes, grown.held hheld⟩
  | asking tenant text decision => trivial
  | found tenant id decision pending => exact ⟨h.1, h.2.mono grown⟩
  | unblocked tenant id decision pending => exact ⟨h.1, h.2.mono grown⟩
  | answering tenant id pending record bytes => exact ⟨h.1, h.2.1.mono grown, h.2.2⟩
  | confirming tenant id pending record bytes =>
    obtain ⟨howner, hanswers, hdigest, hexpired, hin⟩ := h
    exact ⟨howner, hanswers.mono grown, hdigest, hexpired, grown.commits.subset hin⟩

theorem Visit.Ended.mono {visit : Visit} {outcome : Outcome} (grown : world.Grown after)
    (h : visit.Ended archive owner world outcome) : visit.Ended archive owner after outcome := by
  constructor
  case since => exact h.since.trans grown.log.length_le
  case approved =>
    intro digest payload by_ houtcome
    obtain ⟨pending, record, hanswers, hrest⟩ := h.approved digest payload by_ houtcome
    exact ⟨pending, record, hanswers.mono grown, hrest⟩
  case expired => exact fun id houtcome => (h.expired id houtcome).mono grown
  case followed =>
    intro httl record hheard
    rcases h.followed httl record ((World.heard_iff grown h.since).mp hheard) with
      hstore | ⟨pending, hanswers, houtcome⟩
    · exact .inl hstore
    · exact .inr ⟨pending, hanswers.mono grown, houtcome⟩

theorem Event.Sound.mono {event : Event} (grown : world.Grown after)
    (h : event.Sound archive owner world) : event.Sound archive owner after := by
  cases event with
  | accepted number id record =>
    obtain ⟨pending, bytes, hanswers, hdigest, hexpired, hin⟩ := h
    exact ⟨pending, bytes, hanswers.mono grown, hdigest, hexpired, grown.commits.subset hin⟩
  | refused number id cause => trivial
  | ended number visit outcome => exact Visit.Ended.mono grown h

structure Beside (world after : World) : Prop where
  grown : world.Grown after
  places : (after.commits.map Commit.place).Nodup
  calls : after.calls = world.calls
  log : after.log = world.log
  next : after.next = world.next

theorem Beside.refl (h : (world.commits.map Commit.place).Nodup) : Beside world world :=
  ⟨World.Grown.refl world, h, rfl, rfl, rfl⟩

theorem Beside.put (h : (world.commits.map Commit.place).Nodup) (commit : Commit) :
    Beside world (world.put commit) := by
  refine ⟨World.grown_put world commit, World.nodup_put commit h, ?_, ?_, ?_⟩
  all_goals
    unfold World.put
    split <;> rfl

namespace World

theorem Sound.beside (sound : world.Sound archive owner) (beside : Beside world after) :
    after.Sound archive owner := by
  constructor
  case places => exact beside.places
  case calls =>
    intro number call hcall
    rw [beside.calls] at hcall
    rw [beside.next]
    exact ⟨(sound.calls number call hcall).1, (sound.calls number call hcall).2.mono beside.grown⟩
  case events =>
    intro event hevent
    rw [beside.log] at hevent
    rw [beside.next, beside.calls]
    obtain ⟨hsound, hrest⟩ := sound.events event hevent
    exact ⟨hsound.mono beside.grown, hrest⟩
  case once =>
    rw [beside.log]
    exact sound.once

theorem Sound.goOn (sound : world.Sound archive owner) (hold : world.calls.get number = some old)
    (hcall : call.Sound archive owner world number) :
    (world.goOn number call).Sound archive owner := by
  have hgrown : world.Grown (world.goOn number call) :=
    ⟨List.prefix_refl _, List.prefix_refl _⟩
  constructor
  case places => exact sound.places
  case calls =>
    intro asked found hget
    change (world.calls.insert number call).get asked = some found at hget
    rw [Table.get_insert] at hget
    split at hget
    · rename_i hsame
      cases hget
      rw [hsame]
      exact ⟨(sound.calls number old hold).1, hcall.mono hgrown⟩
    · obtain ⟨hlt, hfound⟩ := sound.calls asked found hget
      exact ⟨hlt, hfound.mono hgrown⟩
  case events =>
    intro event hevent
    obtain ⟨hsound, hlt, hnone⟩ := sound.events event hevent
    refine ⟨hsound.mono hgrown, hlt, ?_⟩
    change (world.calls.insert number call).get event.number = none
    rw [Table.get_insert_of_ne]
    · exact hnone
    · rintro rfl
      rw [hold] at hnone
      cases hnone
  case once => exact sound.once

theorem Sound.stop (sound : world.Sound archive owner) (hold : world.calls.get number = some old)
    {event : Event} (hnumber : event.number = number) (hevent : event.Sound archive owner world) :
    (world.stop number event).Sound archive owner := by
  have hgrown : world.Grown (world.stop number event) :=
    ⟨List.prefix_refl _, List.prefix_append _ _⟩
  constructor
  case places => exact sound.places
  case calls =>
    intro asked found hget
    change (world.calls.remove number).get asked = some found at hget
    rw [Table.get_remove] at hget
    split at hget
    · cases hget
    · obtain ⟨hlt, hfound⟩ := sound.calls asked found hget
      exact ⟨hlt, hfound.mono hgrown⟩
  case events =>
    intro other hother
    change _ ∧ _ ∧ (world.calls.remove number).get other.number = none
    rw [Table.get_remove]
    rcases List.mem_append.mp hother with hold' | hnew
    · obtain ⟨hsound, hlt, hnone⟩ := sound.events other hold'
      refine ⟨hsound.mono hgrown, hlt, ?_⟩
      rw [hnone, ite_self]
    · rw [List.mem_singleton.mp hnew]
      refine ⟨hevent.mono hgrown, ?_, by rw [if_pos hnumber]⟩
      rw [hnumber]
      exact (sound.calls number old hold).1
  case once =>
    change ((world.log ++ [event]).map Event.number).Nodup
    rw [List.map_append, List.map_singleton, List.nodup_append]
    refine ⟨sound.once, List.nodup_singleton _, ?_⟩
    intro place hplace last hlast hsame
    obtain ⟨other, hother, rfl⟩ := List.mem_map.mp hplace
    have hnone := (sound.events other hother).2.2
    rw [hsame, List.mem_singleton.mp hlast, hnumber, hold] at hnone
    cases hnone

end World

end Steps

end LogicalWorks.Approval
