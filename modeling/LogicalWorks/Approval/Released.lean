import LogicalWorks.Approval.Decided

/-! A parked approval is decided once and releases the parked bytes: each step of a visit and of a
decision, and any run of them. -/
namespace LogicalWorks.Approval
open Journal LogicalWorks.Task

variable {archive : Archive} {owner : RunId → String} {world after : World} {number : Nat}
  {visit : Visit} {pending : PendingRecord} {bytes : Bytes} {env : Env}

section Outcomes

theorem World.Sound.heard (sound : world.Sound archive owner) {since : Nat} {id : ApprovalId}
    {record : DecisionRecord} (h : world.Heard since id record) : ∃ pending,
      world.Answers archive owner id pending record ∧ record.digest = pending.digest ∧
        record.expired = false := by
  obtain ⟨place, -, number, hevent⟩ := h
  obtain ⟨pending, bytes, hanswers, hdigest, hexpired, -⟩ :=
    (sound.events _ (List.mem_of_getElem? hevent)).1
  exact ⟨pending, hanswers, hdigest, hexpired⟩

theorem Visit.ended_plain {outcome : Outcome} (hsince : visit.since ≤ world.log.length)
    (happroved : ∀ digest payload by_, outcome ≠ .approved digest payload by_)
    (hexpired : ∀ id, outcome ≠ .expired id)
    (hheard : visit.ttl ≠ 0 → (∃ cause, outcome = .store cause) ∨
      ∀ record, ¬ world.Heard visit.since (visit.id archive owner) record) :
    visit.Ended archive owner world outcome := by
  refine ⟨hsince, ?_, ?_, ?_⟩
  · exact fun digest payload by_ houtcome => absurd houtcome (happroved digest payload by_)
  · exact fun id houtcome => absurd houtcome (hexpired id)
  · intro httl record hrecord
    rcases hheard httl with hstore | hnone
    · exact .inl hstore
    · exact absurd hrecord (hnone record)

/-- Nobody has heard of a decision, and the call comes back with nothing. -/
theorem Visit.ended_unheard {outcome : Outcome} (hsince : visit.since ≤ world.log.length)
    (happroved : ∀ digest payload by_, outcome ≠ .approved digest payload by_)
    (hexpired : ∀ id, outcome ≠ .expired id)
    (hunheard : ∀ record, ¬ world.Heard visit.since (visit.id archive owner) record) :
    visit.Ended archive owner world outcome :=
  Visit.ended_plain hsince happroved hexpired fun _ => .inr hunheard

theorem Visit.ended_store (hsince : visit.since ≤ world.log.length) (cause : Task.StoreError) :
    visit.Ended archive owner world (.store cause) :=
  Visit.ended_plain hsince nofun nofun fun _ => .inl ⟨cause, rfl⟩

/-- What a resume makes of its slot: a decision for this approval is followed, and anything else is
refused. -/
theorem followDecision_cases (id : ApprovalId) (pending : PendingRecord) (bytes : Bytes) :
    (∃ record, classifyRecord archive bytes = .decision record ∧
      record.pendingKeyHex = hexOf id.key.bytes ∧ record.digest = pending.digest ∧
      followDecision archive id pending bytes =
        if record.expired then .expired id else World.follows id pending record) ∨
    (∃ reason, followDecision archive id pending bytes = .failed reason) ∧
      ∀ record, classifyRecord archive bytes = .decision record →
        ¬ (record.pendingKeyHex = hexOf id.key.bytes ∧ record.digest = pending.digest) := by
  unfold followDecision World.follows
  cases hclass : classifyRecord archive bytes with
  | pending other => exact .inr ⟨⟨_, rfl⟩, nofun⟩
  | other => exact .inr ⟨⟨_, rfl⟩, nofun⟩
  | decision record =>
    dsimp only
    by_cases hkey : record.pendingKeyHex = hexOf id.key.bytes
    · by_cases hdigest : record.digest = pending.digest
      · refine .inl ⟨record, rfl, hkey, hdigest, ?_⟩
        rw [if_pos hkey, if_neg (not_not.mpr hdigest)]
        cases record.expired <;> cases record.approved <;> simp
      · refine .inr ⟨⟨otherDigest, by rw [if_pos hkey, if_pos hdigest]⟩, ?_⟩
        rintro other hother ⟨-, hsame⟩
        cases hother
        exact hdigest hsame
    · refine .inr ⟨⟨notItsDecision, by rw [if_neg hkey]⟩, ?_⟩
      rintro other hother ⟨hsame, -⟩
      cases hother
      exact hkey hsame

theorem World.Sound.ended_follow (sound : world.Sound archive owner)
    (hsince : visit.since ≤ world.log.length)
    (hparked : world.Parked archive (visit.id archive owner) pending)
    (hheld : world.held (slot archive owner visit.run pending) = some bytes) :
    visit.Ended archive owner world
      (followDecision archive (visit.id archive owner) pending bytes) := by
  have hanswers : ∀ record, classifyRecord archive bytes = .decision record →
      record.pendingKeyHex = hexOf (visit.id archive owner).key.bytes →
      world.Answers archive owner (visit.id archive owner) pending record :=
    fun record hclass hkey => ⟨hparked, bytes, hheld, hclass, hkey⟩
  have hfollowed : ∀ record, world.Heard visit.since (visit.id archive owner) record →
      followDecision archive (visit.id archive owner) pending bytes =
        World.follows (visit.id archive owner) pending record ∧
      world.Answers archive owner (visit.id archive owner) pending record := by
    intro record hheard
    obtain ⟨other, hother, hdigest, hexpired⟩ := sound.heard hheard
    obtain ⟨hotherParked, _, hotherHeld, hclass, hkey⟩ := hother
    have hsame := hparked.unique hotherParked
    subst hsame
    have hbytes : some bytes = some _ := hheld.symm.trans hotherHeld
    cases hbytes
    rcases followDecision_cases (visit.id archive owner) pending bytes with
      ⟨found, hfound, -, -, houtcome⟩ | ⟨-, hnone⟩
    · rw [hclass, RecordClass.decision.injEq] at hfound
      rw [← hfound, hexpired] at houtcome
      exact ⟨by rw [houtcome]; rfl, hanswers record hclass hkey⟩
    · exact absurd ⟨hkey, hdigest⟩ (hnone record hclass)
  constructor
  case since => exact hsince
  case approved =>
    intro digest payload by_ houtcome
    rcases followDecision_cases (visit.id archive owner) pending bytes with
      ⟨record, hclass, hkey, hdigest, hfollow⟩ | ⟨⟨reason, hfollow⟩, -⟩
    · rw [houtcome] at hfollow
      unfold World.follows at hfollow
      split at hfollow
      · cases hfollow
      · rename_i hexpired
        split at hfollow
        · rename_i happroved
          cases hfollow
          exact ⟨pending, record, hanswers record hclass hkey, happroved,
            Bool.eq_false_iff.mpr hexpired, hdigest, rfl, rfl⟩
        · cases hfollow
    · rw [houtcome] at hfollow
      cases hfollow
  case expired =>
    intro id houtcome
    rcases followDecision_cases (visit.id archive owner) pending bytes with
      ⟨record, hclass, hkey, -, hfollow⟩ | ⟨⟨reason, hfollow⟩, -⟩
    · rw [houtcome] at hfollow
      split at hfollow
      · rename_i hexpired
        exact ⟨pending, record, hanswers record hclass hkey, hexpired⟩
      · unfold World.follows at hfollow
        split at hfollow <;> cases hfollow
    · rw [houtcome] at hfollow
      cases hfollow
  case followed =>
    intro _ record hheard
    obtain ⟨houtcome, hrecord⟩ := hfollowed record hheard
    exact .inr ⟨pending, hrecord, houtcome⟩

theorem World.lapsed_of_held (lawful : archive.Lawful) {id : ApprovalId} {record : DecisionRecord}
    (hparked : world.Parked archive id pending)
    (harchived : archive.toRecord (.decision record) = some bytes)
    (hkey : record.pendingKeyHex = hexOf id.key.bytes)
    (hheld : world.held (slot archive owner id.run pending) = some bytes) :
    world.Answers archive owner id pending record := by
  refine ⟨hparked, bytes, hheld, ?_, hkey⟩
  unfold classifyRecord
  rw [lawful.roundTrip harchived]

theorem judge_ok {id : ApprovalId} {decision : ApprovalDecision} {now : Nat}
    {record : DecisionRecord} (h : judge id pending decision now = .ok record) :
    record.pendingKeyHex = hexOf id.key.bytes ∧ record.digest = pending.digest := by
  unfold judge at h
  split at h
  · cases h
    exact ⟨rfl, rfl⟩
  · split at h
    · cases h
    · rename_i hdigest
      cases h
      exact ⟨rfl, not_not.mp hdigest⟩

end Outcomes

namespace World

section Visits

theorem Sound.visiting (sound : world.Sound archive owner)
    (hcall : world.calls.get number = some (.visiting visit)) (env : Env) :
    (world.visiting archive owner number env visit).Sound archive owner := by
  have hsince : visit.since ≤ world.log.length := (sound.calls _ _ hcall).2
  unfold World.visiting
  dsimp only
  split
  · rename_i httl
    exact sound.stop hcall rfl (Visit.ended_plain hsince nofun nofun fun h => absurd httl h)
  · split
    · exact sound.stop hcall rfl (Visit.ended_store hsince _)
    · rename_i bytes hlookup
      have hheld := (lookup_ok hlookup).2.symm
      have hclassed : ∀ record,
          world.Heard visit.since (visit.id archive owner) record →
            ∃ pending, classifyRecord archive bytes = .pending pending := by
        intro record hheard
        obtain ⟨pending, ⟨⟨other, hother, hclass⟩, -⟩, -⟩ := sound.heard hheard
        have hsame : some bytes = some other := hheld.symm.trans hother
        cases hsame
        exact ⟨pending, hclass⟩
      split
      · rename_i pending hclass
        exact sound.goOn hcall ⟨hsince, bytes, hheld, hclass⟩
      · rename_i hclass
        refine sound.stop hcall rfl (Visit.ended_plain hsince nofun nofun fun _ => .inr ?_)
        intro record hheard
        obtain ⟨pending, hpending⟩ := hclassed record hheard
        rw [hclass] at hpending
        cases hpending
      · rename_i hclass
        refine sound.stop hcall rfl (Visit.ended_plain hsince nofun nofun fun _ => .inr ?_)
        intro record hheard
        obtain ⟨pending, hpending⟩ := hclassed record hheard
        rw [hclass] at hpending
        cases hpending
    · rename_i hlookup
      have hnone := (lookup_ok hlookup).2.symm
      have hunheard : ∀ record, ¬ world.Heard visit.since (visit.id archive owner) record := by
        intro record hheard
        obtain ⟨pending, ⟨⟨other, hother, -⟩, -⟩, -⟩ := sound.heard hheard
        have hsame : none = some other := hnone.symm.trans hother
        cases hsame
      split
      · split
        · exact sound.stop hcall rfl
            (Visit.ended_plain hsince nofun nofun fun _ => .inr hunheard)
        · exact sound.goOn hcall ⟨hsince, hunheard⟩
      · exact sound.goOn hcall ⟨hsince, hunheard⟩

theorem Sound.inBlock (sound : world.Sound archive owner)
    (hcall : world.calls.get number = some (.inBlock visit)) (env : Env) :
    (world.inBlock archive owner number env visit).Sound archive owner := by
  obtain ⟨hsince, hunheard⟩ : _ ∧ _ := (sound.calls _ _ hcall).2
  have hended : ∀ reason, visit.Ended archive owner world (.failed reason) :=
    fun reason => Visit.ended_plain hsince nofun nofun fun _ => .inr hunheard
  unfold World.inBlock
  split
  · exact sound.stop hcall rfl (hended _)
  · dsimp only
    generalize hworld : (if world.parkedBy (visit.place archive owner) then
      { world with recomputed := world.recomputed ++ [visit.place archive owner] }
      else world) = noted
    have hbeside : Beside world noted := by
      rw [← hworld]
      split
      · exact ⟨⟨List.prefix_refl _, List.prefix_refl _⟩, sound.places, rfl, rfl, rfl⟩
      · exact Beside.refl sound.places
    have hnoted := sound.beside hbeside
    have hstill : noted.calls.get number = some (.inBlock visit) := by rw [hbeside.calls, hcall]
    split
    · exact hnoted.stop hstill rfl ((hended _).mono hbeside.grown)
    · split
      · exact hnoted.stop hstill rfl ((hended _).mono hbeside.grown)
      · exact hnoted.goOn hstill (hnoted.calls _ _ hstill).2

theorem Sound.appended (sound : world.Sound archive owner) {commit : Commit}
    {answer : Except Task.StoreError Store.Appended}
    (h : world.Appends commit (answer, after)) : Beside world after ∧
      (answer = .ok .recorded → after.held commit.place = some commit.bytes ∧
        commit ∈ after.commits) ∧
      (answer = .ok .alreadyRecorded → after.held commit.place = some commit.bytes) ∧
      (answer = .ok .conflicting → ∃ other, after.held commit.place = some other) := by
  cases h with
  | refused cause _ hafter =>
    refine ⟨?_, nofun, nofun, nofun⟩
    rcases hafter with rfl | rfl
    · exact Beside.refl sound.places
    · exact Beside.put sound.places commit
  | recorded hnone =>
    refine ⟨Beside.put sound.places commit, fun _ => ⟨held_put_self hnone, ?_⟩, nofun, nofun⟩
    unfold put
    rw [if_pos hnone]
    exact List.mem_append_right _ (List.mem_singleton_self _)
  | repeated hheld => exact ⟨Beside.refl sound.places, nofun, fun _ => hheld, nofun⟩
  | conflicting other hheld => exact ⟨Beside.refl sound.places, nofun, nofun, fun _ => ⟨other, hheld⟩⟩

theorem Sound.recording (sound : world.Sound archive owner)
    (hcall : world.calls.get number = some (.recording visit pending bytes)) (env : Env) :
    (world.recording archive owner number env visit pending bytes).Sound archive owner := by
  obtain ⟨hsince, hunheard⟩ : _ ∧ _ := (sound.calls _ _ hcall).2
  have happends := appends owner world env (owner visit.run)
    ⟨visit.place archive owner, bytes, .visit number⟩
  unfold World.recording
  generalize world.append owner env (owner visit.run)
    ⟨visit.place archive owner, bytes, .visit number⟩ = result at happends
  obtain ⟨answer, after⟩ := result
  obtain ⟨hbeside, -⟩ := sound.appended happends
  have hafter := sound.beside hbeside
  have hstill : after.calls.get number = some (.recording visit pending bytes) := by
    rw [hbeside.calls, hcall]
  have hended : ∀ outcome : Outcome, (∀ digest payload by_, outcome ≠ .approved digest payload by_) →
      (∀ id, outcome ≠ .expired id) → visit.Ended archive owner after outcome :=
    fun outcome happroved hexpired => (Visit.ended_plain hsince happroved hexpired
      fun _ => .inr hunheard).mono hbeside.grown
  dsimp only
  split <;> exact hafter.stop hstill rfl (hended _ nofun nofun)

theorem Sound.resuming (sound : world.Sound archive owner)
    (hcall : world.calls.get number = some (.resuming visit pending)) (env : Env) :
    (world.resuming archive owner number env visit pending).Sound archive owner := by
  obtain ⟨hsince, hparked⟩ : _ ∧ _ := (sound.calls _ _ hcall).2
  unfold World.resuming
  dsimp only
  split
  · exact sound.stop hcall rfl (Visit.ended_store hsince _)
  · rename_i hlookup
    exact sound.stop hcall rfl (sound.ended_follow hsince hparked (lookup_ok hlookup).2.symm)
  · rename_i hlookup
    refine sound.goOn hcall ⟨hsince, hparked, ?_⟩
    intro record hheard
    obtain ⟨other, ⟨hother, _, hheld, -⟩, -⟩ := sound.heard hheard
    rw [hparked.unique hother] at hlookup
    have hsame : none = some _ := (lookup_ok hlookup).2.trans hheld
    cases hsame

theorem Sound.undecided (sound : world.Sound archive owner)
    (hcall : world.calls.get number = some (.undecided visit pending)) (env : Env) :
    (world.undecided archive owner number env visit pending).Sound archive owner := by
  obtain ⟨hsince, hparked, hunheard⟩ : _ ∧ _ ∧ _ := (sound.calls _ _ hcall).2
  unfold World.undecided
  dsimp only
  split
  · split
    · refine sound.stop hcall rfl (Visit.ended_unheard hsince ?_ ?_ hunheard)
      · intro digest payload by_ hsame
        cases hsame
      · intro id hsame
        cases hsame
    · rename_i bytes harchived
      exact sound.goOn hcall ⟨hsince, hparked, hunheard, harchived⟩
  · refine sound.stop hcall rfl (Visit.ended_unheard hsince ?_ ?_ hunheard)
    · intro digest payload by_ hsame
      cases hsame
    · intro id hsame
      cases hsame

theorem ended_expired (hsince : visit.since ≤ world.log.length)
    (hlapsed : world.Lapsed archive owner (visit.id archive owner))
    (hunheard : ∀ record, ¬ world.Heard visit.since (visit.id archive owner) record) :
    visit.Ended archive owner world (.expired (visit.id archive owner)) :=
  ⟨hsince, nofun, fun _ _ => hlapsed, fun _ record hheard => absurd hheard (hunheard record)⟩

theorem Sound.lapsing (sound : world.Sound archive owner) (lawful : archive.Lawful)
    (hcall : world.calls.get number = some (.lapsing visit pending bytes)) (env : Env) :
    (world.lapsing archive owner number env visit pending bytes).Sound archive owner := by
  have happends := appends owner world env (owner visit.run)
    ⟨slot archive owner visit.run pending, bytes, .answer number⟩
  unfold World.lapsing
  generalize world.append owner env (owner visit.run)
    ⟨slot archive owner visit.run pending, bytes, .answer number⟩ = result at happends
  obtain ⟨answer, after⟩ := result
  obtain ⟨hbeside, hrecorded, hrepeated, hconflicting⟩ := sound.appended happends
  have hafter := sound.beside hbeside
  have hstill : after.calls.get number = some (.lapsing visit pending bytes) := by
    rw [hbeside.calls, hcall]
  obtain ⟨hsince, hparked, hunheard, harchived⟩ : _ ∧ _ ∧ _ ∧ _ := (hafter.calls _ _ hstill).2
  have hexpired : after.held (slot archive owner visit.run pending) = some bytes →
      visit.Ended archive owner after (.expired (visit.id archive owner)) :=
    fun hheld => ended_expired hsince
      ⟨pending, _, lapsed_of_held lawful hparked harchived rfl hheld, rfl⟩ hunheard
  dsimp only
  split
  · exact hafter.stop hstill rfl (Visit.ended_store hsince _)
  · exact hafter.stop hstill rfl (hexpired (hrecorded rfl).1)
  · exact hafter.stop hstill rfl (hexpired (hrepeated rfl))
  · exact hafter.goOn hstill ⟨hsince, hparked, hunheard, hconflicting rfl⟩

theorem Sound.conflicted (sound : world.Sound archive owner)
    (hcall : world.calls.get number = some (.conflicted visit pending)) (env : Env) :
    (world.conflicted archive owner number env visit pending).Sound archive owner := by
  obtain ⟨hsince, hparked, -, bytes, hheld⟩ : _ ∧ _ ∧ _ ∧ _ := (sound.calls _ _ hcall).2
  unfold World.conflicted
  dsimp only
  split
  · exact sound.stop hcall rfl (Visit.ended_store hsince _)
  · rename_i hlookup
    exact sound.stop hcall rfl (sound.ended_follow hsince hparked (lookup_ok hlookup).2.symm)
  · rename_i hlookup
    -- the store answered the append from a value it holds
    have hsame : none = some bytes := (lookup_ok hlookup).2.trans hheld
    cases hsame

end Visits

section Decisions

variable {tenant : String} {id : ApprovalId} {decision : ApprovalDecision} {record : DecisionRecord}

theorem Sound.asking (sound : world.Sound archive owner) {text : List Char}
    (hcall : world.calls.get number = some (.asking tenant text decision)) (env : Env) :
    (world.asking archive owner number env tenant text decision).Sound archive owner := by
  unfold World.asking
  split
  · exact sound.stop hcall rfl trivial
  · split
    · exact sound.stop hcall rfl trivial
    · rename_i id _ pending hread
      refine sound.goOn hcall ?_
      unfold readPending at hread
      split at hread
      · rename_i bytes hlookup
        obtain ⟨howner, hheld⟩ := lookup_ok hlookup
        split at hread
        · rename_i hclass
          cases hread
          exact ⟨howner, bytes, hheld.symm, hclass⟩
        · cases hread
        · cases hread
      · cases hread
      · cases hread
      · cases hread

theorem Sound.found (sound : world.Sound archive owner)
    (hcall : world.calls.get number = some (.found tenant id decision pending)) (env : Env) :
    (world.found archive owner number env tenant id decision pending).Sound archive owner := by
  unfold World.found
  dsimp only
  split
  · exact sound.stop hcall rfl trivial
  · exact sound.goOn hcall (sound.calls _ _ hcall).2

theorem Sound.unblocked (sound : world.Sound archive owner)
    (hcall : world.calls.get number = some (.unblocked tenant id decision pending)) (env : Env) :
    (world.unblocked archive number env tenant id decision pending).Sound archive owner := by
  obtain ⟨howner, hparked⟩ : _ ∧ _ := (sound.calls _ _ hcall).2
  unfold World.unblocked
  split
  · exact sound.stop hcall rfl trivial
  · rename_i record hjudge
    split
    · exact sound.stop hcall rfl trivial
    · rename_i bytes harchived
      obtain ⟨hkey, hdigest⟩ := judge_ok hjudge
      exact sound.goOn hcall ⟨howner, hparked, harchived, hkey, hdigest⟩

theorem Sound.answering (sound : world.Sound archive owner) (lawful : archive.Lawful)
    (hcall : world.calls.get number = some (.answering tenant id pending record bytes))
    (env : Env) :
    (world.answering archive owner number env tenant id pending record bytes).Sound archive
      owner := by
  have happends := appends owner world env tenant
    ⟨(id.run, decisionKeyFor archive tenant pending.path), bytes, .answer number⟩
  unfold World.answering
  generalize world.append owner env tenant
    ⟨(id.run, decisionKeyFor archive tenant pending.path), bytes, .answer number⟩ = result
    at happends
  obtain ⟨answer, after⟩ := result
  obtain ⟨hbeside, hrecorded, -, -⟩ := sound.appended happends
  have hafter := sound.beside hbeside
  have hstill : after.calls.get number = some (.answering tenant id pending record bytes) := by
    rw [hbeside.calls, hcall]
  obtain ⟨rfl, hparked, harchived, hkey, hdigest⟩ : _ ∧ _ ∧ _ ∧ _ ∧ _ :=
    (hafter.calls _ _ hstill).2
  dsimp only
  split
  · exact hafter.stop hstill rfl trivial
  · exact hafter.stop hstill rfl trivial
  · obtain ⟨hheld, hin⟩ := hrecorded rfl
    split
    · exact hafter.stop hstill rfl trivial
    · rename_i hexpired
      exact hafter.goOn hstill ⟨rfl, lapsed_of_held lawful hparked harchived hkey hheld, hdigest,
        Bool.eq_false_iff.mpr hexpired, hin⟩
  · split <;> exact hafter.stop hstill rfl trivial

theorem Sound.confirming (sound : world.Sound archive owner)
    (hcall : world.calls.get number = some (.confirming tenant id pending record bytes))
    (env : Env) :
    (world.confirming archive owner number env tenant id pending record bytes).Sound archive
      owner := by
  obtain ⟨-, hanswers, hdigest, hexpired, hin⟩ : _ ∧ _ ∧ _ ∧ _ ∧ _ := (sound.calls _ _ hcall).2
  unfold World.confirming
  split
  · exact sound.stop hcall rfl trivial
  · split
    · exact sound.stop hcall rfl ⟨pending, bytes, hanswers, hdigest, hexpired, hin⟩
    · exact sound.stop hcall rfl trivial

end Decisions

theorem Sound.begin_ (sound : world.Sound archive owner) {call : Call}
    (hcall : call.Sound archive owner world world.next) :
    (world.begin_ call).Sound archive owner := by
  have hgrown : world.Grown (world.begin_ call) := ⟨List.prefix_refl _, List.prefix_refl _⟩
  constructor
  case places => exact sound.places
  case calls =>
    intro asked found hget
    change (world.calls.insert world.next call).get asked = some found at hget
    rw [Table.get_insert] at hget
    split at hget
    · rename_i hsame
      cases hget
      rw [hsame]
      exact ⟨Nat.lt_succ_self _, hcall.mono hgrown⟩
    · obtain ⟨hlt, hfound⟩ := sound.calls asked found hget
      exact ⟨Nat.lt_succ_of_lt hlt, hfound.mono hgrown⟩
  case events =>
    intro event hevent
    obtain ⟨hsound, hlt, hnone⟩ := sound.events event hevent
    refine ⟨hsound.mono hgrown, Nat.lt_succ_of_lt hlt, ?_⟩
    change (world.calls.insert world.next call).get event.number = none
    rw [Table.get_insert_of_ne _ _ (Nat.ne_of_lt hlt)]
    exact hnone
  case once => exact sound.once

theorem Sound.drop (sound : world.Sound archive owner) (number : Nat) :
    ({ world with calls := world.calls.remove number } : World).Sound archive owner := by
  have hgrown : world.Grown { world with calls := world.calls.remove number } :=
    ⟨List.prefix_refl _, List.prefix_refl _⟩
  constructor
  case places => exact sound.places
  case calls =>
    intro asked found hget
    change (world.calls.remove number).get asked = some found at hget
    rw [Table.get_remove] at hget
    split at hget
    · cases hget
    · obtain ⟨hlt, hfound⟩ := sound.calls asked found hget
      exact ⟨hlt, hfound.mono hgrown⟩
  case events =>
    intro event hevent
    obtain ⟨hsound, hlt, hnone⟩ := sound.events event hevent
    refine ⟨hsound.mono hgrown, hlt, ?_⟩
    change (world.calls.remove number).get event.number = none
    rw [Table.get_remove, hnone, ite_self]
  case once => exact sound.once

theorem Sound.act (sound : world.Sound archive owner) (lawful : archive.Lawful) (action : Action) :
    (world.act archive owner action).Sound archive owner := by
  cases action with
  | visit run path name ttl => exact sound.begin_ (Nat.le_refl _)
  | decide tenant text decision => exact sound.begin_ trivial
  | ordinary place bytes => exact sound.beside (Beside.put sound.places _)
  | drop number => exact sound.drop number
  | advance number env =>
    unfold World.act World.advance
    dsimp only
    split
    · exact sound
    · exact sound.visiting ‹_› env
    · exact sound.inBlock ‹_› env
    · exact sound.recording ‹_› env
    · exact sound.resuming ‹_› env
    · exact sound.undecided ‹_› env
    · exact sound.lapsing lawful ‹_› env
    · exact sound.conflicted ‹_› env
    · exact sound.asking ‹_› env
    · exact sound.found ‹_› env
    · exact sound.unblocked ‹_› env
    · exact sound.answering lawful ‹_› env
    · exact sound.confirming ‹_› env

end World

end LogicalWorks.Approval
