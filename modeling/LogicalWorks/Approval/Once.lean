import LogicalWorks.Approval.Released

/-! What any run of visits, decisions and lapses shows of a parked approval, and what it shows where
no lapse stands in another approval's slot and no payload block runs beside a commit of its step. -/
namespace LogicalWorks.Approval
open Journal LogicalWorks.Task

namespace World

section

variable (archive : Archive) (owner : RunId → String)

structure Released (world : World) : Prop where
  once : (world.commits.map Commit.place).Nodup
  approved : ∀ number visit digest payload by_,
    .ended number visit (.approved digest payload by_) ∈ world.log → ∃ pending record,
      world.Answers archive owner (visit.id archive owner) pending record ∧
        record.approved = true ∧ record.expired = false ∧ record.digest = pending.digest ∧
        digest = pending.digest ∧ payload = pending.payload
  decided : ∀ (first second number other : Nat) id record found,
    world.log[first]? = some (Event.accepted number id record) →
      world.log[second]? = some (Event.accepted other id found) → first = second
  followed : ∀ (place number other : Nat) (visit : Visit) record outcome,
    world.log[place]? = some (Event.accepted number (visit.id archive owner) record) →
      .ended other visit outcome ∈ world.log → place < visit.since → visit.ttl ≠ 0 →
        (∃ cause, outcome = .store cause) ∨ ∃ pending,
          world.Answers archive owner (visit.id archive owner) pending record ∧
            outcome = follows (visit.id archive owner) pending record
  expired : ∀ number visit id, .ended number visit (.expired id) ∈ world.log →
    world.Lapsed archive owner (visit.id archive owner)
  lapsed : ∀ number id record, world.Lapsed archive owner id →
    .accepted number id record ∉ world.log

def NamesItsLapse (world : World) : Action → Prop
  | .advance number _ => ∀ tenant id decision pending bytes record,
      world.calls.get number = some (.found tenant id decision pending) →
        world.held (id.run, decisionKeyFor archive tenant pending.path) = some bytes →
          classifyRecord archive bytes = .decision record → record.expired = true →
            record.pendingKeyHex = hexOf id.key.bytes
  | _ => True

def AloneInBlock (world : World) : Action → Prop
  | .advance number _ => ∀ visit pending bytes,
      world.calls.get number = some (.recording visit pending bytes) →
        ∀ other otherVisit, world.calls.get other = some (.inBlock otherVisit) →
          otherVisit.place archive owner ≠ visit.place archive owner
  | _ => True

end

variable {archive : Archive} {owner : RunId → String} {world after : World} {number : Nat}

section Released

theorem Sound.accepted (sound : world.Sound archive owner) {id : ApprovalId}
    {record : DecisionRecord} (h : .accepted number id record ∈ world.log) : ∃ pending bytes,
      world.Answers archive owner id pending record ∧ record.digest = pending.digest ∧
        record.expired = false ∧
        ⟨slot archive owner id.run pending, bytes, .answer number⟩ ∈ world.commits :=
  (sound.events _ h).1

theorem Sound.ended (sound : world.Sound archive owner) {visit : Visit} {outcome : Outcome}
    (h : .ended number visit outcome ∈ world.log) : visit.Ended archive owner world outcome :=
  (sound.events _ h).1

theorem Sound.commit_unique (sound : world.Sound archive owner) {left right : Commit}
    (hleft : left ∈ world.commits) (hright : right ∈ world.commits)
    (hplace : left.place = right.place) : left = right :=
  List.inj_on_of_nodup_map sound.places hleft hright hplace

theorem Sound.released (sound : world.Sound archive owner) : world.Released archive owner := by
  constructor
  case once => exact sound.places
  case approved =>
    intro number visit digest payload by_ hevent
    exact (sound.ended hevent).approved digest payload by_ rfl
  case decided =>
    intro first second number other id record found hfirst hsecond
    obtain ⟨pending, bytes, hanswers, -, -, hin⟩ := sound.accepted (List.mem_of_getElem? hfirst)
    obtain ⟨_, otherBytes, hotherAnswers, -, -, hotherIn⟩ :=
      sound.accepted (List.mem_of_getElem? hsecond)
    obtain ⟨rfl, -⟩ := hanswers.unique hotherAnswers
    have hcommit := sound.commit_unique hin hotherIn rfl
    have hsource : Source.answer number = Source.answer other := congrArg Commit.source hcommit
    have hnumbers : (world.log.map Event.number)[first]? = (world.log.map Event.number)[second]? := by
      rw [List.getElem?_map, List.getElem?_map, hfirst, hsecond]
      exact congrArg some (Source.answer.inj hsource)
    have hlt : first < (world.log.map Event.number).length := by
      rw [List.length_map]
      exact (List.getElem?_eq_some_iff.mp hfirst).1
    exact (List.getElem?_inj hlt sound.once).mp hnumbers
  case followed =>
    intro place number other visit record outcome hplace hended hsince httl
    exact (sound.ended hended).followed httl record ⟨place, hsince, number, hplace⟩
  case expired =>
    intro number visit id hevent
    exact (sound.ended hevent).expired id rfl
  case lapsed =>
    rintro number id record ⟨pending, lapse, hanswers, hexpired⟩ hevent
    obtain ⟨_, bytes, hother, -, hlive, -⟩ := sound.accepted hevent
    obtain ⟨-, rfl⟩ := hanswers.unique hother
    rw [hexpired] at hlive
    cases hlive

end Released

section Advanced

variable (archive : Archive) (owner : RunId → String)

/-- What a step of a call does to the rest of the world: nothing, an append, or the note that a
payload block returned after its step was committed. -/
inductive Base (world : World) (number : Nat) : World → Prop where
  | same : Base world number world
  | put (commit : Commit) (hsource : ∀ author, commit.source = .visit author →
      ∃ visit pending bytes, world.calls.get number = some (.recording visit pending bytes) ∧
        commit.place = visit.place archive owner) : Base world number (world.put commit)
  | noted (visit : Visit) (hcall : world.calls.get number = some (.inBlock visit))
      (hparked : world.parkedBy (visit.place archive owner) = true) :
      Base world number { world with recomputed := world.recomputed ++ [visit.place archive owner] }

/-- Why a decision was refused as expired: it found an expired decision in the slot, or its own
append of the lapse stands. -/
def Expires (world base : World) (number : Nat) (id : ApprovalId) : Prop :=
  (∃ tenant decision pending bytes record,
    world.calls.get number = some (.found tenant id decision pending) ∧ owner id.run = tenant ∧
      world.held (id.run, decisionKeyFor archive tenant pending.path) = some bytes ∧
      classifyRecord archive bytes = .decision record ∧ record.expired = true) ∨
  ∃ tenant pending record bytes,
    world.calls.get number = some (.answering tenant id pending record bytes) ∧
      record.expired = true ∧
      base.held (id.run, decisionKeyFor archive tenant pending.path) = some bytes

inductive Advanced (world : World) (number : Nat) : World → Prop where
  | nobody : Advanced world number world
  | stop (base : World) (event : Event) (hbase : Base archive owner world number base)
      (hevent : ∀ author id text, event = .refused author (some id) (.expired text) →
        Expires archive owner world base number id) :
      Advanced world number (base.stop number event)
  | goOn (base : World) (call : Call) (hbase : Base archive owner world number base)
      (hcall : ∀ visit, call = .inBlock visit →
        base.held (visit.place archive owner) = none) :
      Advanced world number (base.goOn number call)

variable {archive owner}

theorem Base.append {env : Env} {tenant : String} {commit : Commit}
    {answer : Except Task.StoreError Store.Appended}
    (hsource : ∀ author, commit.source = .visit author → ∃ visit pending bytes,
      world.calls.get number = some (.recording visit pending bytes) ∧
        commit.place = visit.place archive owner)
    (h : world.append owner env tenant commit = (answer, after)) :
    Base archive owner world number after := by
  have happends := appends owner world env tenant commit
  rw [h] at happends
  cases happends with
  | refused cause _ hafter =>
    rcases hafter with rfl | rfl
    · exact .same
    · exact .put commit hsource
  | recorded hnone => exact .put commit hsource
  | repeated hheld => exact .same
  | conflicting other hheld => exact .same

theorem readPending_ne_expired {id : ApprovalId} {found : Found} {text : List Char} :
    readPending archive id found ≠ .error (.expired text) := by
  unfold readPending
  split
  · split <;> simp
  · simp
  · simp
  · simp

theorem judge_ne_expired {id : ApprovalId} {pending : PendingRecord} {decision : ApprovalDecision}
    {now : Nat} {text : List Char} : judge id pending decision now ≠ .error (.expired text) := by
  unfold judge
  split
  · simp
  · split <;> simp

theorem checkUndecided_expired {id : ApprovalId} {found : Found} {text : List Char}
    (h : checkUndecided archive id found = .error (.expired text)) :
    ∃ bytes record, found = .ok (some bytes) ∧
      classifyRecord archive bytes = .decision record ∧ record.expired = true := by
  unfold checkUndecided at h
  split at h
  · rename_i bytes
    split at h
    · rename_i record hclass
      split at h
      · rename_i hexpired
        exact ⟨bytes, record, rfl, hclass, hexpired⟩
      · cases h
    · cases h
    · cases h
  · cases h
  · cases h

theorem advanced_stop {visit : Visit} {outcome : Outcome} {base : World}
    (hbase : Base archive owner world number base) :
    Advanced archive owner world number (base.stop number (.ended number visit outcome)) :=
  .stop base _ hbase (by intros; contradiction)

theorem advanced_visit (env : Env) {visit : Visit} :
    Advanced archive owner world number (world.visiting archive owner number env visit) := by
  unfold World.visiting
  dsimp only
  split
  · exact advanced_stop .same
  · split
    · exact advanced_stop .same
    · split
      · exact .goOn world _ .same (by intros; contradiction)
      · exact advanced_stop .same
      · exact advanced_stop .same
    · rename_i hlookup
      have hfree : ∀ other, Call.inBlock visit = .inBlock other →
          world.held (other.place archive owner) = none := by
        intro other hsame
        cases hsame
        exact (lookup_ok hlookup).2.symm
      split
      · split
        · exact advanced_stop .same
        · exact .goOn world _ .same hfree
      · exact .goOn world _ .same hfree

theorem advanced_inBlock (env : Env) {visit : Visit}
    (hcall : world.calls.get number = some (.inBlock visit)) :
    Advanced archive owner world number (world.inBlock archive owner number env visit) := by
  unfold World.inBlock
  split
  · exact advanced_stop .same
  · dsimp only
    generalize hworld : (if world.parkedBy (visit.place archive owner) then
      { world with recomputed := world.recomputed ++ [visit.place archive owner] }
      else world) = noted
    have hbase : Base archive owner world number noted := by
      rw [← hworld]
      split
      · rename_i hparked
        exact .noted visit hcall hparked
      · exact .same
    split
    · exact advanced_stop hbase
    · split
      · exact advanced_stop hbase
      · exact .goOn noted _ hbase (by intros; contradiction)

theorem advanced_found (env : Env) {tenant : String} {id : ApprovalId}
    {decision : ApprovalDecision} {pending : PendingRecord}
    (hcall : world.calls.get number = some (.found tenant id decision pending)) :
    Advanced archive owner world number
      (world.found archive owner number env tenant id decision pending) := by
  unfold World.found
  dsimp only
  split
  · rename_i cause hcheck
    refine .stop world _ .same ?_
    rintro author other text hevent
    cases hevent
    obtain ⟨bytes, record, hlookup, hclass, hexpired⟩ := checkUndecided_expired hcheck
    obtain ⟨howner, hheld⟩ := lookup_ok hlookup
    exact .inl ⟨tenant, decision, pending, bytes, record, hcall, howner, hheld.symm, hclass,
      hexpired⟩
  · exact .goOn world _ .same (by intros; contradiction)

theorem advanced_answering (env : Env) {tenant : String} {id : ApprovalId}
    {pending : PendingRecord} {record : DecisionRecord} {bytes : Bytes}
    (hcall : world.calls.get number = some (.answering tenant id pending record bytes)) :
    Advanced archive owner world number
      (world.answering archive owner number env tenant id pending record bytes) := by
  unfold World.answering
  have happends := appends owner world env tenant
    ⟨(id.run, decisionKeyFor archive tenant pending.path), bytes, .answer number⟩
  generalize happend : world.append owner env tenant
    ⟨(id.run, decisionKeyFor archive tenant pending.path), bytes, .answer number⟩ = result
    at happends
  obtain ⟨answer, base⟩ := result
  have hbase : Base archive owner world number base := Base.append (fun _ h => by cases h) happend
  have hlapse : record.expired = true →
      base.held (id.run, decisionKeyFor archive tenant pending.path) = some bytes →
      ∀ author other text, Event.refused number (some id) (.expired id.toText) =
        .refused author (some other) (.expired text) →
          Expires archive owner world base number other := by
    rintro hexpired hheld author other text hevent
    cases hevent
    exact .inr ⟨tenant, pending, record, bytes, hcall, hexpired, hheld⟩
  dsimp only
  split
  · exact .stop base _ hbase (by rintro _ _ _ ⟨⟩)
  · exact .stop base _ hbase (by rintro _ _ _ ⟨⟩)
  · split
    · rename_i hexpired
      refine .stop base _ hbase (hlapse hexpired ?_)
      cases happends with
      | recorded hnone => exact held_put_self hnone
    · exact .goOn base _ hbase (by intros; contradiction)
  · split
    · rename_i hexpired
      refine .stop base _ hbase (hlapse hexpired ?_)
      cases happends with
      | repeated hheld => exact hheld
    · exact .stop base _ hbase (by rintro _ _ _ ⟨⟩)

theorem advanced (archive : Archive) (owner : RunId → String) (world : World) (number : Nat)
    (env : Env) : Advanced archive owner world number (world.advance archive owner number env) := by
  unfold World.advance
  split
  · exact .nobody
  · exact advanced_visit env
  · rename_i hcall
    exact advanced_inBlock env hcall
  · rename_i visit pending bytes hcall
    unfold World.recording
    generalize happend : world.append owner env (owner visit.run)
      ⟨visit.place archive owner, bytes, .visit number⟩ = result
    obtain ⟨answer, base⟩ := result
    have hbase : Base archive owner world number base :=
      Base.append (fun _ _ => ⟨visit, pending, bytes, hcall, rfl⟩) happend
    dsimp only
    split <;> exact advanced_stop hbase
  · unfold World.resuming
    dsimp only
    split
    · exact advanced_stop .same
    · exact advanced_stop .same
    · exact .goOn world _ .same (by intros; contradiction)
  · unfold World.undecided
    dsimp only
    split
    · split
      · exact advanced_stop .same
      · exact .goOn world _ .same (by intros; contradiction)
    · exact advanced_stop .same
  · rename_i visit pending bytes hcall
    unfold World.lapsing
    generalize happend : world.append owner env (owner visit.run)
      ⟨slot archive owner visit.run pending, bytes, .answer number⟩ = result
    obtain ⟨answer, base⟩ := result
    have hbase : Base archive owner world number base := Base.append (fun _ h => by cases h) happend
    dsimp only
    split
    · exact advanced_stop hbase
    · exact advanced_stop hbase
    · exact advanced_stop hbase
    · exact .goOn base _ hbase (by intros; contradiction)
  · unfold World.conflicted
    dsimp only
    split <;> exact advanced_stop .same
  · unfold World.asking
    split
    · exact .stop world _ .same (by rintro _ _ _ ⟨⟩)
    · split
      · rename_i cause hread
        refine .stop world _ .same ?_
        rintro author id text hevent
        cases hevent
        exact absurd hread readPending_ne_expired
      · exact .goOn world _ .same (by intros; contradiction)
  · rename_i hcall
    exact advanced_found env hcall
  · unfold World.unblocked
    split
    · rename_i cause hjudge
      refine .stop world _ .same ?_
      rintro author id text hevent
      cases hevent
      exact absurd hjudge judge_ne_expired
    · split
      · exact .stop world _ .same (by rintro _ _ _ ⟨⟩)
      · exact .goOn world _ .same (by intros; contradiction)
  · rename_i hcall
    exact advanced_answering env hcall
  · unfold World.confirming
    split
    · exact .stop world _ .same (by rintro _ _ _ ⟨⟩)
    · split
      · exact .stop world _ .same (by intros; contradiction)
      · exact .stop world _ .same (by rintro _ _ _ ⟨⟩)

end Advanced

section Runs

theorem Base.grown {base : World} (h : Base archive owner world number base) :
    world.Grown base := by
  cases h with
  | same => exact Grown.refl world
  | put commit => exact grown_put world commit
  | noted => exact ⟨List.prefix_refl _, List.prefix_refl _⟩

theorem Base.calls {base : World} (h : Base archive owner world number base) :
    base.calls = world.calls := by
  cases h with
  | same => rfl
  | put commit =>
    unfold World.put
    split <;> rfl
  | noted => rfl

theorem Base.log {base : World} (h : Base archive owner world number base) :
    base.log = world.log := by
  cases h with
  | same => rfl
  | put commit =>
    unfold World.put
    split <;> rfl
  | noted => rfl

theorem grown_act (archive : Archive) (owner : RunId → String) (world : World) (action : Action) :
    world.Grown (world.act archive owner action) := by
  cases action with
  | visit run path name ttl => exact ⟨List.prefix_refl _, List.prefix_refl _⟩
  | decide tenant text decision => exact ⟨List.prefix_refl _, List.prefix_refl _⟩
  | ordinary place bytes => exact grown_put world _
  | drop number => exact ⟨List.prefix_refl _, List.prefix_refl _⟩
  | advance number env =>
    have hstep := advanced archive owner world number env
    change world.Grown (world.advance archive owner number env)
    generalize world.advance archive owner number env = after at hstep
    cases hstep with
    | nobody => exact Grown.refl _
    | stop base event hbase =>
      exact hbase.grown.trans ⟨List.prefix_refl _, List.prefix_append _ _⟩
    | goOn base call hbase =>
      exact hbase.grown.trans ⟨List.prefix_refl _, List.prefix_refl _⟩

def LapsesNamed (archive : Archive) (owner : RunId → String) (world : World) : Prop :=
  ∀ number id text, Event.refused number (some id) (.expired text) ∈ world.log →
    world.Lapsed archive owner id

theorem LapsesNamed.act (named : world.LapsesNamed archive owner)
    (sound : world.Sound archive owner) (lawful : archive.Lawful) {action : Action}
    (hnames : world.NamesItsLapse archive action) :
    (world.act archive owner action).LapsesNamed archive owner := by
  have hgrown := grown_act archive owner world action
  have hkept : ∀ number id text, Event.refused number (some id) (.expired text) ∈ world.log →
      (world.act archive owner action).Lapsed archive owner id :=
    fun number id text h => (named number id text h).mono hgrown
  cases action with
  | visit run path name ttl => exact hkept
  | decide tenant text decision => exact hkept
  | drop number => exact hkept
  | ordinary place bytes =>
    intro number id text hevent
    refine hkept number id text ?_
    unfold World.act put at hevent
    dsimp only at hevent
    split at hevent <;> exact hevent
  | advance number env =>
    have hstep := advanced archive owner world number env
    change (world.advance archive owner number env).LapsesNamed archive owner
    change ∀ author id text, Event.refused author (some id) (.expired text) ∈ world.log →
      (world.advance archive owner number env).Lapsed archive owner id at hkept
    change world.Grown (world.advance archive owner number env) at hgrown
    generalize world.advance archive owner number env = after at hstep hkept hgrown
    cases hstep with
    | nobody => exact hkept
    | goOn base call hbase =>
      intro author id text hevent
      refine hkept author id text ?_
      rw [← hbase.log]
      exact hevent
    | stop base event hbase hexpires =>
      intro author id text hin
      rcases List.mem_append.mp hin with hold | hnew
      · exact hkept author id text (hbase.log ▸ hold)
      · rcases hexpires author id text (List.mem_singleton.mp hnew).symm with
          ⟨tenant, decision, pending, bytes, record, hcall, rfl, hheld, hclass, hexpired⟩ |
          ⟨tenant, pending, record, bytes, hcall, hexpired, hheld⟩
        · obtain ⟨-, hparked⟩ : _ ∧ _ := (sound.calls _ _ hcall).2
          have hkey := hnames _ id decision pending bytes record hcall hheld hclass hexpired
          exact Lapsed.mono hgrown
            ⟨pending, record, ⟨hparked, bytes, hheld, hclass, hkey⟩, hexpired⟩
        · obtain ⟨rfl, hparked, harchived, hkey, -⟩ : _ ∧ _ ∧ _ ∧ _ ∧ _ :=
            (sound.calls _ _ hcall).2
          have hanswers : base.Answers archive owner id pending record :=
            lapsed_of_held lawful (hparked.mono hbase.grown) harchived hkey hheld
          have hthen : base.Grown (base.stop number event) :=
            ⟨List.prefix_refl _, List.prefix_append _ _⟩
          exact ⟨pending, record, hanswers.mono hthen, hexpired⟩

/-- No payload block returned behind a commit of its step, and none runs behind one. -/
structure Unrepeated (archive : Archive) (owner : RunId → String) (world : World) : Prop where
  none : world.recomputed = []
  running : ∀ number visit, world.calls.get number = some (.inBlock visit) →
    world.parkedBy (visit.place archive owner) = false

theorem parkedBy_put {commit : Commit} {place : Place}
    (h : ∀ author, commit.source = .visit author → commit.place ≠ place) :
    (world.put commit).parkedBy place = world.parkedBy place := by
  unfold put
  split
  · unfold parkedBy
    rw [List.any_append, List.any_cons, List.any_nil, Bool.or_false]
    cases hsource : commit.source with
    | visit author => simp [h author hsource]
    | answer author => simp
    | ordinary => simp
  · rfl

theorem parkedBy_of_held {place : Place} (h : world.held place = none) :
    world.parkedBy place = false := by
  unfold parkedBy
  rw [List.any_eq_false]
  intro commit hcommit hparked
  have hplace : commit.place = place := by
    rw [decide_eq_true_eq] at hparked
    exact hparked.1
  have hfind := List.find?_eq_none.mp (Option.map_eq_none_iff.mp h) commit hcommit
  exact hfind (by simpa using hplace)

theorem Unrepeated.act (unrepeated : world.Unrepeated archive owner) {action : Action}
    (halone : world.AloneInBlock archive owner action) :
    (world.act archive owner action).Unrepeated archive owner := by
  cases action with
  | visit run path name ttl =>
    refine ⟨unrepeated.none, ?_⟩
    intro number visit hcall
    change (world.calls.insert _ _).get number = _ at hcall
    rw [Table.get_insert] at hcall
    split at hcall
    · cases hcall
    · exact unrepeated.running number visit hcall
  | decide tenant text decision =>
    refine ⟨unrepeated.none, ?_⟩
    intro number visit hcall
    change (world.calls.insert _ _).get number = _ at hcall
    rw [Table.get_insert] at hcall
    split at hcall
    · cases hcall
    · exact unrepeated.running number visit hcall
  | ordinary place bytes =>
    have hbase : Base archive owner world 0 (world.put ⟨place, bytes, .ordinary⟩) :=
      .put _ (fun _ h => by cases h)
    refine ⟨?_, ?_⟩
    · change (world.put _).recomputed = []
      unfold put
      split <;> exact unrepeated.none
    · intro number visit hcall
      change (world.put _).calls.get number = _ at hcall
      rw [hbase.calls] at hcall
      change (world.put _).parkedBy _ = false
      rw [parkedBy_put (fun _ h => by cases h)]
      exact unrepeated.running number visit hcall
  | drop number =>
    refine ⟨unrepeated.none, ?_⟩
    intro asked visit hcall
    change (world.calls.remove number).get asked = _ at hcall
    rw [Table.get_remove] at hcall
    split at hcall
    · cases hcall
    · exact unrepeated.running asked visit hcall
  | advance number env =>
    have hstep := advanced archive owner world number env
    change (world.advance archive owner number env).Unrepeated archive owner
    have hbased : ∀ base, Base archive owner world number base →
        base.Unrepeated archive owner := by
      intro base hbase
      have hcalls := hbase.calls
      cases hbase with
      | same => exact unrepeated
      | noted visit hcall hparked =>
        rw [unrepeated.running number visit hcall] at hparked
        cases hparked
      | put commit hsource =>
        refine ⟨?_, ?_⟩
        · unfold put
          split <;> exact unrepeated.none
        · intro asked visit hcall
          rw [hcalls] at hcall
          rw [parkedBy_put]
          · exact unrepeated.running asked visit hcall
          · intro author hauthor
            obtain ⟨other, pending, bytes, hrecording, hplace⟩ := hsource author hauthor
            rw [hplace]
            exact (halone other pending bytes hrecording asked visit hcall).symm
    generalize world.advance archive owner number env = after at hstep
    cases hstep with
    | nobody => exact unrepeated
    | stop base event hbase =>
      obtain ⟨hnone, hrunning⟩ := hbased base hbase
      refine ⟨hnone, ?_⟩
      intro asked visit hcall
      change (base.calls.remove number).get asked = _ at hcall
      rw [Table.get_remove] at hcall
      split at hcall
      · cases hcall
      · exact hrunning asked visit hcall
    | goOn base call hbase hfree =>
      obtain ⟨hnone, hrunning⟩ := hbased base hbase
      refine ⟨hnone, ?_⟩
      intro asked visit hcall
      change (base.calls.insert number call).get asked = _ at hcall
      rw [Table.get_insert] at hcall
      split at hcall
      · exact parkedBy_of_held (hfree visit (Option.some.inj hcall))
      · exact hrunning asked visit hcall

theorem sound_start : start.Sound archive owner :=
  ⟨List.nodup_nil, nofun, nofun, List.nodup_nil⟩

/-- An approval is decided once, its decision is what later resumes follow, and what they release is
what was parked; where a decision finds no lapse but its approval's own, it reports expiry over
that lapse alone; and where no visit commits beside another's payload block, no block returns
behind the commit of its step. -/
theorem decided_once (lawful : archive.Lawful) {trace : List (World × Action)} {final : World}
    (run : Run (World.Step archive owner) World.start trace final) :
    final.Released archive owner ∧ (∀ taken ∈ trace, taken.1.Grown final) ∧
      ((∀ taken ∈ trace, taken.1.NamesItsLapse archive taken.2) →
        ∀ number id text, .refused number (some id) (.expired text) ∈ final.log →
          final.Lapsed archive owner id) ∧
      ((∀ taken ∈ trace, taken.1.AloneInBlock archive owner taken.2) → final.recomputed = []) := by
  have hsound : ∀ world action next, World.Sound archive owner world →
      World.Step archive owner world action next → World.Sound archive owner next := by
    intro world action next sound hstep
    rw [← hstep]
    exact sound.act lawful action
  refine ⟨(run.always sound_start hsound).released, ?_, ?_, ?_⟩
  · intro taken htaken
    obtain ⟨before, rest, -, -, hrest⟩ := run.cut htaken
    refine @Run.always _ _ _ _ _ _ (fun world => taken.1.Grown world) hrest (Grown.refl _) ?_
    intro world action next hgrown hstep
    rw [← hstep]
    exact hgrown.trans (grown_act archive owner world action)
  · intro hnames
    refine (@Run.invariant _ _ _ _ _ _ (fun world : World => world.Sound archive owner ∧
      world.LapsesNamed archive owner) (fun (world : World) action => world.NamesItsLapse archive action)
      run ⟨sound_start, nofun⟩ ?_ hnames).2
    rintro world action next ⟨sound, named⟩ hname hstep
    rw [← hstep]
    exact ⟨sound.act lawful action, named.act sound lawful hname⟩
  · intro halone
    refine (@Run.invariant _ _ _ _ _ _ (fun world : World => world.Unrepeated archive owner)
      (fun (world : World) action => world.AloneInBlock archive owner action) run ⟨rfl, nofun⟩ ?_
      halone).none
    intro world action next unrepeated hstill hstep
    rw [← hstep]
    exact unrepeated.act hstill

end Runs


end World

namespace Crossing

def hash (bytes : Bytes) : Digest := Digest.fromBytes bytes.reverse

def digest : Digest := hashFramed hash [utf8 "lgwks.bot/approval.v1", [7]]

def key : Digest := hashFramed hash [utf8 "acme", utf8 "a"]

def parked : PendingRecord := ⟨"acme", 1, "a", "ship", digest, [7], 0, 10⟩

def approval : DecisionRecord := ⟨hexOf key.bytes, true, false, digest, "ops"⟩

def foreign : DecisionRecord := ⟨"00", false, true, digest, "expiry"⟩

def archive : Archive where
  hash
  toRecord record :=
    if record = .pending parked then some [1]
    else if record = .decision approval then some [2]
    else if record = .decision foreign then some [3] else none
  fromRecord bytes :=
    if bytes = [1] then some (.pending parked)
    else if bytes = [2] then some (.decision approval)
    else if bytes = [3] then some (.decision foreign) else none
  payloadToRecord payload := some payload

theorem lawful : archive.Lawful where
  roundTrip := by
    intro record bytes h
    unfold archive at h ⊢
    dsimp only at h ⊢
    split at h
    · rename_i hparked
      cases h
      rw [if_pos rfl, hparked]
    · split at h
      · rename_i happroval
        cases h
        rw [if_neg (by decide), if_pos rfl, happroval]
      · split at h
        · rename_i hforeign
          cases h
          rw [if_neg (by decide), if_neg (by decide), if_pos rfl, hforeign]
        · cases h

def owner (_ : RunId) : String := "acme"

def env : Env := ⟨none, false, 0, some [7], some 0, 64⟩

def decision : ApprovalDecision := ⟨"ops", .approve, digest⟩

def text : List Char := (ApprovalId.mk 1 key).toText

def approved : List World.Action :=
  [.visit 1 "a" "ship" 10, .advance 0 env, .advance 0 env, .advance 0 env,
    .decide "acme" text decision, .advance 1 env, .advance 1 env, .advance 1 env, .advance 1 env,
    .advance 1 env, .visit 1 "a" "ship" 10, .advance 2 { env with now := 20 },
    .advance 2 { env with now := 20 }]

/-- Two visits find nothing parked; the second runs its payload block after the first has parked. -/
def twice : List World.Action :=
  [.visit 1 "a" "ship" 10, .visit 1 "a" "ship" 10, .advance 0 env, .advance 1 env, .advance 0 env,
    .advance 0 env, .advance 1 env]

/-- An ordinary step records another approval's lapse in the slot, and a decision is made. -/
def crossed : List World.Action :=
  [.visit 1 "a" "ship" 10, .advance 0 env, .advance 0 env, .advance 0 env,
    .ordinary (1, decisionKeyFor archive "acme" "a") [3], .decide "acme" text decision,
    .advance 1 env, .advance 1 env]

def final (actions : List World.Action) : World :=
  actions.foldl (World.act archive owner) World.start

theorem run (actions : List World.Action) : Run (World.Step archive owner) World.start
    (traceOf (World.act archive owner) World.start actions) (final actions) :=
  Run.ofActions _ _ _

theorem decided_once_approved : (final approved).Released archive owner ∧
    (final approved).log.length = 3 :=
  ⟨(World.decided_once lawful (run approved)).1, by decide +kernel⟩

theorem recomputed_and_crossed :
    (∃ trace final, Run (World.Step archive owner) World.start trace final ∧
      final.recomputed ≠ []) ∧
    ∃ trace final, Run (World.Step archive owner) World.start trace final ∧
      ∃ number id text, .refused number (some id) (.expired text) ∈ final.log ∧
        ¬ final.Lapsed archive owner id := by
  refine ⟨⟨_, _, run twice, by decide +kernel⟩, _, _, run crossed, 1, ⟨1, key⟩, text,
    by decide +kernel, ?_⟩
  rintro ⟨pending, record, ⟨⟨bytes, hheld, hclass⟩, other, hslot, hrecord, hkey⟩, -⟩
  have hparked : (final crossed).held (1, key) = some [1] := by decide +kernel
  have hforeign : (final crossed).held (1, decisionKeyFor archive "acme" "a") = some [3] := by
    decide +kernel
  have hbytes : some bytes = some [1] := hheld.symm.trans hparked
  cases hbytes
  have hpending : RecordClass.pending parked = .pending pending := hclass
  cases hpending
  have hother : some other = some [3] := hslot.symm.trans hforeign
  cases hother
  have hfound : RecordClass.decision foreign = .decision record := hrecord
  cases hfound
  have hne : ("00" : String) ≠ hexOf key.bytes := by decide +kernel
  exact hne hkey

end Crossing

end LogicalWorks.Approval
