import LogicalWorks.Cas.Versions

/-! What the record store promises its editors, when it keeps it, and the writes and documents it
does not keep it for. -/
namespace LogicalWorks.Cas
open Session (Text)

variable {path scratch : Text} {world : World} {state : StoreState} {record : Text}
  {expected : UInt64} {value : Text} {now : WallStamp} {fate : Fate}

/-- What a write does: its state lands on disk and it is answered, unless the process dies first; or
the file stays, and the store with it unless the process dies. -/
theorem World.write_spec (path scratch : Text) (hlive : world.live = some state) (record : Text) (expected : UInt64)
    (value : Text) (now : WallStamp) (fate : Fate) :
    let op := World.Op.write record expected value now fate
    let next := state.attempt record expected value now
    (fate.lands = true ∧ (act path scratch world op).disk.file = some (.document (document next.1)) ∧
      (answer scratch world op = none ∨ answer scratch world op = some next.2 ∧
        (act path scratch world op).live = some next.1)) ∨
    ((act path scratch world op).disk.file = world.disk.file ∧ (answer scratch world op = none ∨
      (∃ cause, answer scratch world op = some (.error (.io cause))) ∧
        (act path scratch world op).live = world.live)) := by
  dsimp only
  unfold World.act World.answer
  simp only [hlive]
  unfold World.write
  dsimp only
  cases fate with
  | done =>
    refine .inl ⟨rfl, ?_, .inr ⟨rfl, ?_⟩⟩
    · change (World.settle _ _ _ _ _ _).disk.file = _
      cases (state.attempt record expected value now).2 <;> rfl
    · change (World.settle _ _ _ _ _ _).live = _
      cases (state.attempt record expected value now).2 <;> rfl
  | crashAfter => exact .inl ⟨rfl, rfl, .inl rfl⟩
  | crashBefore left => exact .inr ⟨rfl, .inl rfl⟩
  | writeRefused left error => exact .inr ⟨rfl, .inr ⟨⟨_, rfl⟩, hlive⟩⟩
  | renameRefused error => exact .inr ⟨rfl, .inr ⟨⟨_, rfl⟩, hlive⟩⟩

/-- What a refused write leaves: one more conflict, and where there were as many as are retained,
the oldest evicted and counted. -/
def Refused (state next : StoreState) (entry : ConflictEntry) : Prop :=
  next.records = state.records ∧
    if maxConflicts ≤ state.conflicts.length then
      next.conflicts = (state.conflicts ++ [entry]).tail ∧
        next.evicted.toNat = state.evicted.toNat + 1
    else next.conflicts = state.conflicts ++ [entry] ∧ next.evicted = state.evicted

/-- No update is lost in a world, or by the next step below the last version. -/
structure Unlost (path scratch : Text) (world : World) : Prop where
  /-- Of all writes naming one record and version at most one was answered. -/
  once : (world.answered.map fun row => (row.1, row.2.1)).Nodup
  version : ∀ op, world.Allowed op → ∀ record,
    (world.act path scratch op).fileVersion record = world.fileVersion record ∨
    ((world.act path scratch op).fileVersion record).toNat = (world.fileVersion record).toNat + 1 ∧
      ∃ value now fate, op = .write record (world.fileVersion record) value now fate
  /-- A write answers with the next version, and is remembered as answered. -/
  ok : ∀ op version, world.Allowed op → world.answer scratch op = some (.ok version) →
    ∃ record expected value now fate, op = .write record expected value now fate ∧
      version.toNat = expected.toNat + 1 ∧ (world.act path scratch op).answered =
        (record, expected, version, value) :: world.answered
  /-- What was answered is read back, unless a write that names its version reached the file. -/
  readBack : ∀ row ∈ world.answered, (row.1, row.2.2.1) ∈ world.applied ∨
    ∃ state installed, world.disk.read = .ok state ∧ state.records.get row.1 = some installed ∧
      installed.version = row.2.2.1 ∧ installed.value = row.2.2.2
  io : ∀ op cause, world.answer scratch op = some (.error (.io cause)) →
    (world.act path scratch op).live = world.live ∧
      (world.act path scratch op).disk.file = world.disk.file
  conflict : ∀ record expected value now fate named wanted found,
    world.Allowed (.write record expected value now fate) →
    world.answer scratch (.write record expected value now fate) =
      some (.error (.conflict named wanted found)) →
    ∃ state next, world.live = some state ∧
      (world.act path scratch (.write record expected value now fate)).live = some next ∧
      (world.act path scratch (.write record expected value now fate)).disk.file =
        some (.document (document next)) ∧
      named = record ∧ wanted = expected ∧ found = state.version record ∧ found ≠ expected ∧
      Refused state next ⟨record, expected, found, now⟩
  live : ∀ state, world.live = some state → ∃ reopened, world.disk.read = .ok reopened ∧
    reopened.unstamped = state.unstamped
  opens : ∀ refusal state, load path world.disk refusal = .ok state →
    world.disk.file = none ∧ state = .empty ∨
    ∃ held, world.disk.file = some (.document (document held)) ∧ state = held.unstamped

theorem refused_refuse {entry : ConflictEntry}
    (hcount : maxConflicts ≤ state.conflicts.length → state.evicted ≠ u64Max) :
    Refused state (state.refuse entry) entry := by
  refine ⟨state.refuse_records entry, ?_⟩
  have hlength : (state.conflicts ++ [entry]).length = state.conflicts.length + 1 := by simp
  by_cases hfull : maxConflicts ≤ state.conflicts.length
  · have hover : maxConflicts < (state.conflicts ++ [entry]).length := by omega
    rw [if_pos hfull]
    unfold StoreState.refuse
    simp only [if_pos hover]
    refine ⟨trivial, ?_⟩
    have hlt : state.evicted.toNat < 18446744073709551615 := by
      have hle := state.evicted.toNat_lt
      have hne : state.evicted.toNat ≠ u64Max.toNat :=
        fun heq => hcount hfull (UInt64.toNat_inj.mp heq)
      have hmax : u64Max.toNat = 18446744073709551615 := rfl
      omega
    unfold saturatingSucc
    rw [if_neg (hcount hfull), UInt64.toNat_add]
    have hone : (1 : UInt64).toNat = 1 := rfl
    omega
  · have hunder : ¬ maxConflicts < (state.conflicts ++ [entry]).length := by omega
    rw [if_neg hfull]
    unfold StoreState.refuse
    simp only [if_neg hunder]
    exact ⟨trivial, trivial⟩

namespace Consistent

theorem fileVersion_eq (h : Consistent world) (hlive : world.live = some state) (record : Text) :
    world.fileVersion record = state.version record := by
  obtain ⟨reopened, hread, hsame⟩ := h.live state hlive
  unfold World.fileVersion
  rw [hread]
  exact StoreState.version_congr (StoreState.records_of_unstamped hsame) record

theorem fileVersion_congr {next : World} (h : next.disk.file = world.disk.file) (record : Text) :
    next.fileVersion record = world.fileVersion record := by
  unfold World.fileVersion Disk.read
  rw [h]

theorem fileVersion_document {next : World} {held : StoreState}
    (h : next.disk.file = some (.document (document held))) (record : Text) :
    next.fileVersion record = held.version record := by
  unfold World.fileVersion Disk.read
  simp only [h, decode_document]
  rfl

theorem version (h : Consistent world) {op : World.Op} (hallowed : world.Allowed op) (asked : Text) :
    (world.act path scratch op).fileVersion asked = world.fileVersion asked ∨
    ((world.act path scratch op).fileVersion asked).toNat = (world.fileVersion asked).toNat + 1 ∧
      ∃ value now fate, op = .write asked (world.fileVersion asked) value now fate := by
  cases op with
  | open_ refusal =>
    left
    refine fileVersion_congr ?_ asked
    change (World.open_ path world refusal).disk.file = _
    unfold World.open_
    cases load path world.disk refusal <;> rfl
  | write record expected value now fate =>
    cases hlive : world.live with
    | none =>
      left
      unfold World.act
      simp only [hlive]
    | some state =>
      rcases World.write_spec path scratch hlive record expected value now fate with ⟨hlands, hfile, -⟩ | ⟨hfile, -⟩
      · rw [fileVersion_document hfile, h.fileVersion_eq hlive]
        rcases state.attempt_cases record expected value now with ⟨-, hattempt⟩ |
          ⟨hversion, installed, hinstalled, -, hattempt⟩
        · left
          rw [hattempt]
          exact StoreState.version_congr (state.refuse_records _) asked
        · rw [hattempt]
          have hget : ∀ name, ({ state with
              records := state.records.insert record installed } : StoreState).records.get name =
                if name = record then some installed else state.records.get name :=
            fun name => Ordered.get_insert state.records record name installed
          by_cases hasked : asked = record
          · right
            subst hasked
            refine ⟨?_, value, now, fate, by rw [hversion]⟩
            unfold StoreState.version
            simp only [hget, if_true]
            change _ = (state.version asked).toNat + 1
            rw [hinstalled, hversion]
            refine toNat_succ fun hlast => ?_
            exact (hallowed state hlive hlands).1 ⟨hversion.trans hlast, hlast⟩
          · left
            unfold StoreState.version
            simp only [hget, if_neg hasked]
      · exact .inl (fileVersion_congr hfile asked)

theorem ok {op : World.Op} {version : UInt64} (hallowed : world.Allowed op)
    (hanswer : world.answer scratch op = some (.ok version)) :
    ∃ record expected value now fate, op = .write record expected value now fate ∧
      version.toNat = expected.toNat + 1 ∧ (world.act path scratch op).answered =
        (record, expected, version, value) :: world.answered := by
  cases op with
  | open_ refusal => cases hanswer
  | write record expected value now fate =>
    refine ⟨record, expected, value, now, fate, rfl, ?_⟩
    unfold World.answer at hanswer
    cases hlive : world.live with
    | none =>
      simp only [hlive] at hanswer
      cases hanswer
    | some state =>
      unfold World.act
      simp only [hlive] at hanswer ⊢
      unfold World.write at hanswer ⊢
      dsimp only at hanswer ⊢
      cases fate with
      | done =>
        rcases state.attempt_cases record expected value now with ⟨-, hattempt⟩ |
          ⟨hversion, installed, hinstalled, rfl, hattempt⟩
        · rw [hattempt] at hanswer
          cases hanswer
        · rw [hattempt] at hanswer ⊢
          cases hanswer
          refine ⟨?_, rfl⟩
          rw [hinstalled]
          refine toNat_succ fun hlast => ?_
          exact (hallowed state hlive rfl).1 ⟨hversion.trans hlast, hlast⟩
      | crashAfter | crashBefore | writeRefused | renameRefused => cases hanswer

theorem io {op : World.Op} {cause : Text}
    (hanswer : world.answer scratch op = some (.error (.io cause))) :
    (world.act path scratch op).live = world.live ∧
      (world.act path scratch op).disk.file = world.disk.file := by
  cases op with
  | open_ refusal => cases hanswer
  | write record expected value now fate =>
    cases hlive : world.live with
    | none =>
      unfold World.answer at hanswer
      simp only [hlive] at hanswer
      cases hanswer
    | some state =>
      rw [← hlive]
      rcases World.write_spec path scratch hlive record expected value now fate with ⟨-, -, hnone | ⟨hsome, -⟩⟩ | ⟨hfile, hnone | ⟨-, hkept⟩⟩
      · cases hnone.symm.trans hanswer
      · rcases state.attempt_cases record expected value now with ⟨-, hattempt⟩ |
          ⟨-, installed, -, -, hattempt⟩
        · rw [hattempt] at hsome
          cases hsome.symm.trans hanswer
        · rw [hattempt] at hsome
          cases hsome.symm.trans hanswer
      · cases hnone.symm.trans hanswer
      · exact ⟨hkept, hfile⟩

theorem conflict {named : Text} {wanted found : UInt64}
    (hallowed : world.Allowed (.write record expected value now fate))
    (hanswer : world.answer scratch (.write record expected value now fate) =
      some (.error (.conflict named wanted found))) :
    ∃ state next, world.live = some state ∧
      (world.act path scratch (.write record expected value now fate)).live = some next ∧
      (world.act path scratch (.write record expected value now fate)).disk.file =
        some (.document (document next)) ∧
      named = record ∧ wanted = expected ∧ found = state.version record ∧ found ≠ expected ∧
      Refused state next ⟨record, expected, found, now⟩ := by
  cases hlive : world.live with
  | none =>
    unfold World.answer at hanswer
    simp only [hlive] at hanswer
    cases hanswer
  | some state =>
    rcases World.write_spec path scratch hlive record expected value now fate with ⟨hlands, hfile, hnone | ⟨hsome, hnext⟩⟩ | ⟨-, hnone | ⟨⟨cause, hio⟩, -⟩⟩
    · cases hnone.symm.trans hanswer
    · rcases state.attempt_cases record expected value now with ⟨hmoved, hattempt⟩ |
        ⟨-, installed, -, -, hattempt⟩
      · rw [hattempt] at hsome hnext hfile
        cases hsome.symm.trans hanswer
        refine ⟨state, _, rfl, hnext, hfile, rfl, rfl, rfl, hmoved, refused_refuse ?_⟩
        exact (hallowed state hlive hlands).2 hmoved
      · rw [hattempt] at hsome
        cases hsome.symm.trans hanswer
    · cases hnone.symm.trans hanswer
    · cases hio.symm.trans hanswer

theorem opens (h : Consistent world) {refusal : Option Text}
    (hload : load path world.disk refusal = .ok state) :
    world.disk.file = none ∧ state = .empty ∨
    ∃ held, world.disk.file = some (.document (document held)) ∧ state = held.unstamped := by
  cases refusal with
  | some error => cases hload
  | none =>
    have hread : world.disk.read = .ok state := hload
    unfold Disk.read at hread
    cases hfile : world.disk.file with
    | none =>
      simp only [hfile] at hread
      cases hread
      exact .inl ⟨rfl, rfl⟩
    | some content =>
      cases content with
      | refused error =>
        simp only [hfile] at hread
        cases hread
      | document found =>
        simp only [hfile] at hread
        obtain ⟨held, rfl⟩ := h.wellKept found hfile ((decode_isOk found).mp ⟨state, hread⟩)
        rw [decode_document] at hread
        cases hread
        exact .inr ⟨held, rfl, rfl⟩

end Consistent

/-- In a store whose file is of the shape that is persisted, no run of writes and reopens below the
last version loses an update, whatever fails and wherever the process dies. -/
theorem no_versioned_update_lost {disk : Disk} {trace : List (World × World.Op)} {final : World}
    (hdisk : WellKept disk) (h : Run (World.Step path scratch) (.start disk) trace final)
    (hallowed : ∀ taken ∈ trace, taken.1.Allowed taken.2) : Unlost path scratch final := by
  have hfinal := Consistent.run hdisk h hallowed
  constructor
  case once => exact hfinal.sublist.nodup hfinal.distinct
  case version => exact fun op hop record => hfinal.version hop record
  case ok => exact fun op version hop hanswer => Consistent.ok hop hanswer
  case readBack => exact hfinal.held
  case io => exact fun op cause hanswer => Consistent.io hanswer
  case conflict =>
    intro record expected value now fate named wanted found hop hanswer
    exact Consistent.conflict hop hanswer
  case live => exact hfinal.live
  case opens => exact fun refusal state hload => hfinal.opens hload

def heldAt (version : UInt64) (hpos : noVersion < version) : StoreState :=
  ⟨.ofList [("r".toList, ⟨version, "a".toList, hpos⟩)], [], 0⟩

def twoEditors (version : UInt64) : List World.Op :=
  [.open_ none, .write "r".toList version "b".toList [] .done,
    .write "r".toList version "c".toList [] .done]

def heldWorld (version : UInt64) (hpos : noVersion < version) : World :=
  .start ⟨some (.document (document (heldAt version hpos))), none⟩

instance World.decidableAllowed (world : World) (op : World.Op) : Decidable (world.Allowed op) :=
  match op with
  | .open_ _ => .isTrue trivial
  | .write record expected _ _ fate =>
    match hlive : world.live with
    | none => .isTrue fun _ hsome => by cases hlive.symm.trans hsome
    | some state =>
      decidable_of_iff (fate.lands = true →
        ¬ (state.version record = u64Max ∧ expected = u64Max) ∧
        (state.version record ≠ expected → maxConflicts ≤ state.conflicts.length →
          state.evicted ≠ u64Max))
        ⟨fun hone other hsome => by cases hlive.symm.trans hsome; exact hone,
          fun hall => hall state hlive⟩

theorem no_versioned_update_lost_twoEditors :
    Unlost [] [] ((twoEditors 1).foldl (World.act [] []) (heldWorld 1 (by decide))) :=
  no_versioned_update_lost (fun found hfound _ => ⟨_, by cases hfound; rfl⟩)
    (Run.ofActions (World.act [] []) (heldWorld 1 (by decide)) (twoEditors 1))
    (by decide +kernel)

def bareDocument : Json := .object [(cas, .string casTag), (evictedKey, .number (.natural 0))]

/-- At the last version two writes that name it are both answered; and a document without its
sections is read as a store with no records. -/
theorem last_version_named_twice :
    ¬ Unlost [] [] ((twoEditors u64Max).foldl (World.act [] []) (heldWorld u64Max (by decide))) ∧
    ¬ Unlost [] [] (.start ⟨some (.document bareDocument), none⟩) := by
  constructor
  · intro hlost
    have htwice : (((twoEditors u64Max).foldl (World.act [] [])
        (heldWorld u64Max (by decide))).answered.map fun row => (row.1, row.2.1)) =
          [("r".toList, u64Max), ("r".toList, u64Max)] := by decide +kernel
    have honce := hlost.once
    rw [htwice] at honce
    simp at honce
  · intro hlost
    have hload : load [] ⟨some (.document bareDocument), none⟩ none = .ok .empty := by rfl
    rcases hlost.opens none .empty hload with ⟨hnone, -⟩ | ⟨held, hheld, -⟩
    · cases hnone
    · simp [World.start, bareDocument, document] at hheld

end LogicalWorks.Cas
