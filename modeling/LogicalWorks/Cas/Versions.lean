import LogicalWorks.Cas.Store

/-! No versioned update is lost, whatever fails and whenever the process dies: what holds over every
run of writes and reopens that stays below the last version. -/
namespace LogicalWorks.Cas
open Session (Text)

namespace StoreState

variable {state other : StoreState} {record asked : Text} {expected : UInt64} {value : Text}
  {now : WallStamp}

@[simp] theorem unstamped_records (state : StoreState) : state.unstamped.records = state.records := rfl

@[simp] theorem unstamped_unstamped (state : StoreState) :
    state.unstamped.unstamped = state.unstamped := by
  simp [unstamped, Function.comp_def]

theorem version_congr (h : state.records = other.records) (record : Text) :
    state.version record = other.version record := by
  unfold version
  rw [h]

theorem records_of_unstamped (h : state.unstamped = other.unstamped) :
    state.records = other.records := by
  have hrecords := congrArg records h
  exact hrecords

@[simp] theorem refuse_records (state : StoreState) (entry : ConflictEntry) :
    (state.refuse entry).records = state.records := by
  unfold refuse
  dsimp only
  split <;> rfl

theorem attempt_cases (state : StoreState) (record : Text) (expected : UInt64) (value : Text)
    (now : WallStamp) :
    (state.version record ≠ expected ∧ state.attempt record expected value now =
      (state.refuse ⟨record, expected, state.version record, now⟩,
        .error (.conflict record expected (state.version record)))) ∨
    (state.version record = expected ∧ ∃ installed : Record,
      installed.version = max (saturatingSucc expected) 1 ∧ installed.value = value ∧
      state.attempt record expected value now =
        ({ state with records := state.records.insert record installed }, .ok installed.version)) := by
  unfold attempt
  dsimp only
  by_cases hfound : state.version record = expected
  · rw [if_neg (not_not.mpr hfound)]
    exact .inr ⟨hfound, _, rfl, rfl, rfl⟩
  · rw [if_pos hfound]
    exact .inl ⟨hfound, rfl⟩

end StoreState

theorem toNat_succ {expected : UInt64} (h : expected ≠ u64Max) :
    (max (saturatingSucc expected) 1).toNat = expected.toNat + 1 := by
  have hlt : expected.toNat < 18446744073709551615 := by
    have hle := expected.toNat_lt
    have hne : expected.toNat ≠ u64Max.toNat := fun heq => h (UInt64.toNat_inj.mp heq)
    have hmax : u64Max.toNat = 18446744073709551615 := rfl
    omega
  have hsucc : (saturatingSucc expected).toNat = expected.toNat + 1 := by
    unfold saturatingSucc
    rw [if_neg h, UInt64.toNat_add]
    have hone : (1 : UInt64).toNat = 1 := rfl
    omega
  change (if saturatingSucc expected ≤ 1 then (1 : UInt64) else saturatingSucc expected).toNat = _
  split
  · rename_i hle
    rw [UInt64.le_iff_toNat_le, hsucc] at hle
    have hone : (1 : UInt64).toNat = 1 := rfl
    omega
  · exact hsucc

namespace World

def fileVersion (world : World) (record : Text) : UInt64 :=
  match world.disk.read with
  | .ok state => state.version record
  | .error _ => noVersion

/-- The steps that stay below the last version and the last count: no write lands that names the
last version of a record at that version, or that evicts a conflict when the count is at its end. -/
def Allowed (world : World) : Op → Prop
  | .open_ _ => True
  | .write record expected _ _ fate => ∀ state, world.live = some state → fate.lands = true →
      ¬ (state.version record = u64Max ∧ expected = u64Max) ∧
      (state.version record ≠ expected → maxConflicts ≤ state.conflicts.length →
        state.evicted ≠ u64Max)

end World

/-- Nothing that is read as a store is of another shape than what is persisted. -/
def WellKept (disk : Disk) : Prop :=
  ∀ found, disk.file = some (.document found) → Loose found → Shaped found

/-- What every allowed step keeps: memory is what the file says, and the file remembers each write
that reached it. -/
structure Consistent (world : World) : Prop where
  wellKept : WellKept world.disk
  live : ∀ state, world.live = some state → ∃ reopened, world.disk.read = .ok reopened ∧
    reopened.unstamped = state.unstamped
  sublist : (world.answered.map fun row => (row.1, row.2.1)).Sublist world.applied
  distinct : world.applied.Nodup
  below : ∀ pair ∈ world.applied, ∃ state, world.disk.read = .ok state ∧
    pair.2.toNat < (state.version pair.1).toNat
  held : ∀ row ∈ world.answered, (row.1, row.2.2.1) ∈ world.applied ∨
    ∃ state installed, world.disk.read = .ok state ∧ state.records.get row.1 = some installed ∧
      installed.version = row.2.2.1 ∧ installed.value = row.2.2.2

namespace Consistent

variable {world : World} {path scratch : Text} {state : StoreState} {record : Text}
  {expected : UInt64} {value : Text} {now : WallStamp} {fate : Fate}

theorem start {disk : Disk} (h : WellKept disk) : Consistent (.start disk) where
  wellKept := h
  live := by
    intro state hstate
    cases hstate
  sublist := List.Sublist.refl _
  distinct := List.nodup_nil
  below := by
    intro pair hpair
    cases hpair
  held := by
    intro row hrow
    cases hrow

theorem unchanged (h : Consistent world) {scratchFile : Option Content} {live : Option StoreState}
    (hlive : ∀ state, live = some state → ∃ reopened, world.disk.read = .ok reopened ∧
      reopened.unstamped = state.unstamped) :
    Consistent { world with disk := ⟨world.disk.file, scratchFile⟩, live } where
  wellKept := h.wellKept
  live := hlive
  sublist := h.sublist
  distinct := h.distinct
  below := h.below
  held := h.held

theorem gone (h : Consistent world) {scratchFile : Option Content} :
    Consistent { world with disk := ⟨world.disk.file, scratchFile⟩, live := none } := by
  apply h.unchanged
  intro state hstate
  cases hstate

theorem read_document (state : StoreState) (scratchFile : Option Content) :
    (Disk.mk (some (.document (document state))) scratchFile).read = .ok state.unstamped :=
  decode_document state

theorem refused (h : Consistent world) (hlive : world.live = some state) (entry : ConflictEntry)
    (scratchFile : Option Content) {live : Option StoreState}
    (hnext : live = none ∨ live = some (state.refuse entry)) :
    Consistent { world with
      disk := ⟨some (.document (document (state.refuse entry))), scratchFile⟩, live } := by
  obtain ⟨reopened, hread, hsame⟩ := h.live state hlive
  have hrecords : (state.refuse entry).unstamped.records = reopened.records := by
    rw [StoreState.unstamped_records, StoreState.refuse_records,
      StoreState.records_of_unstamped hsame]
  constructor
  case wellKept => exact fun found hfound _ => ⟨_, by cases hfound; rfl⟩
  case live =>
    intro held hheld
    refine ⟨_, read_document _ _, ?_⟩
    rcases hnext with hnone | hsome
    · cases hnone.symm.trans hheld
    · cases hsome.symm.trans hheld
      simp
  case sublist => exact h.sublist
  case distinct => exact h.distinct
  case below =>
    intro pair hpair
    obtain ⟨before, hbefore, hlt⟩ := h.below pair hpair
    cases hread.symm.trans hbefore
    refine ⟨_, read_document _ _, ?_⟩
    rw [StoreState.version_congr hrecords]
    exact hlt
  case held =>
    intro row hrow
    rcases h.held row hrow with hlater | ⟨before, installed, hbefore, hget, hversion, hvalue⟩
    · exact .inl hlater
    · cases hread.symm.trans hbefore
      refine .inr ⟨_, installed, read_document _ _, ?_, hversion, hvalue⟩
      rw [hrecords]
      exact hget

/-- An answered write is remembered behind the record that another write installs. -/
theorem held_insert (h : Consistent world) {reopened next : StoreState} {installed : Record}
    (hread : world.disk.read = .ok reopened) (hbefore : reopened.version record = expected)
    (hget : ∀ asked, next.unstamped.records.get asked =
      if asked = record then some installed else reopened.records.get asked)
    {row : Text × UInt64 × UInt64 × Text} (hrow : row ∈ world.answered)
    (scratchFile : Option Content) :
    (row.1, row.2.2.1) ∈ (record, expected) :: world.applied ∨
      ∃ state found, (Disk.mk (some (.document (document next))) scratchFile).read = .ok state ∧
        state.records.get row.1 = some found ∧ found.version = row.2.2.1 ∧
        found.value = row.2.2.2 := by
  rcases h.held row hrow with hlater | ⟨before, found, hfound, hgetBefore, hheld, hvalue⟩
  · exact .inl (List.mem_cons_of_mem _ hlater)
  · cases hread.symm.trans hfound
    by_cases hasked : row.1 = record
    · left
      have hnamed : row.2.2.1 = expected := by
        rw [← hbefore, ← hheld, ← hasked]
        unfold StoreState.version
        rw [hgetBefore]
      rw [hasked, hnamed]
      exact List.mem_cons_self
    · refine .inr ⟨_, found, read_document _ _, ?_, hheld, hvalue⟩
      rw [hget, if_neg hasked]
      exact hgetBefore

theorem installed (h : Consistent world) (hlive : world.live = some state)
    (hversion : state.version record = expected) (hlast : expected ≠ u64Max)
    {installed : Record} (hinstalled : installed.version = max (saturatingSucc expected) 1)
    (scratchFile : Option Content) {next : StoreState}
    (hnext : next = { state with records := state.records.insert record installed })
    {live : Option StoreState} {answered : List (Text × UInt64 × UInt64 × Text)}
    (hafter : live = none ∧ answered = world.answered ∨ live = some next ∧
      answered = (record, expected, installed.version, installed.value) :: world.answered) :
    Consistent { world with
      disk := ⟨some (.document (document next)), scratchFile⟩, live, answered
      applied := (record, expected) :: world.applied } := by
  obtain ⟨reopened, hread, hsame⟩ := h.live state hlive
  have hrecords := StoreState.records_of_unstamped hsame
  have hget : ∀ asked, next.unstamped.records.get asked =
      if asked = record then some installed else reopened.records.get asked := by
    intro asked
    rw [StoreState.unstamped_records, hnext, hrecords]
    exact Ordered.get_insert state.records record asked installed
  have hself : next.unstamped.version record = installed.version := by
    unfold StoreState.version
    rw [hget, if_pos rfl]
  have hother : ∀ asked, asked ≠ record →
      next.unstamped.version asked = reopened.version asked := by
    intro asked hne
    unfold StoreState.version
    rw [hget, if_neg hne]
  have hsucc : installed.version.toNat = expected.toNat + 1 := by
    rw [hinstalled]
    exact toNat_succ hlast
  have hbefore : reopened.version record = expected :=
    (StoreState.version_congr hrecords record).trans hversion
  constructor
  case wellKept => exact fun found hfound _ => ⟨_, by cases hfound; rfl⟩
  case live =>
    intro held hheld
    refine ⟨_, read_document _ _, ?_⟩
    rcases hafter with ⟨hnone, -⟩ | ⟨hsome, -⟩
    · cases hnone.symm.trans hheld
    · cases hsome.symm.trans hheld
      simp
  case sublist =>
    rcases hafter with ⟨-, rfl⟩ | ⟨-, rfl⟩
    · exact h.sublist.cons _
    · exact h.sublist.cons_cons _
  case distinct =>
    refine List.nodup_cons.mpr ⟨fun hmem => ?_, h.distinct⟩
    obtain ⟨before, hfound, hlt⟩ := h.below _ hmem
    cases hread.symm.trans hfound
    rw [hbefore] at hlt
    exact absurd hlt (Nat.lt_irrefl _)
  case below =>
    intro pair hpair
    refine ⟨_, read_document _ _, ?_⟩
    rcases List.mem_cons.mp hpair with rfl | hpair
    · rw [hself, hsucc]
      exact Nat.lt_succ_self _
    · obtain ⟨before, hfound, hlt⟩ := h.below pair hpair
      cases hread.symm.trans hfound
      by_cases hasked : pair.1 = record
      · rw [hasked, hbefore] at hlt
        rw [hasked, hself, hsucc]
        omega
      · rw [hother _ hasked]
        exact hlt
  case held =>
    intro row hrow
    rcases hafter with ⟨-, rfl⟩ | ⟨-, rfl⟩
    · exact h.held_insert hread hbefore hget hrow scratchFile
    · rcases List.mem_cons.mp hrow with rfl | hrow
      · refine .inr ⟨_, installed, read_document _ _, ?_, rfl, rfl⟩
        rw [hget, if_pos rfl]
      · exact h.held_insert hread hbefore hget hrow scratchFile

theorem open_ (h : Consistent world) (refusal : Option Text) :
    Consistent (World.open_ path world refusal) := by
  unfold World.open_ load
  cases refusal with
  | some error => exact h.gone
  | none =>
    dsimp only
    cases hread : world.disk.read with
    | error cause => exact h.gone
    | ok state =>
      refine h.unchanged fun held hheld => ?_
      cases hheld
      exact ⟨state, hread, rfl⟩

theorem write (h : Consistent world) (hlive : world.live = some state)
    (hallowed : fate.lands = true → state.version record = expected → expected ≠ u64Max) :
    Consistent (World.write scratch world state record expected value now fate).1 := by
  unfold World.write
  dsimp only
  rcases state.attempt_cases record expected value now with ⟨-, hattempt⟩ |
    ⟨hversion, installed, hinstalled, rfl, hattempt⟩
  · rw [hattempt]
    cases fate with
    | done => exact h.refused hlive _ none (.inr rfl)
    | crashAfter => exact h.refused hlive _ none (.inl rfl)
    | crashBefore left => exact h.gone
    | writeRefused left error => exact h.unchanged (h.live)
    | renameRefused error => exact h.unchanged (h.live)
  · rw [hattempt]
    cases fate with
    | done =>
      exact h.installed hlive hversion (hallowed rfl hversion) hinstalled none rfl
        (.inr ⟨rfl, rfl⟩)
    | crashAfter =>
      exact h.installed hlive hversion (hallowed rfl hversion) hinstalled none rfl
        (.inl ⟨rfl, rfl⟩)
    | crashBefore left => exact h.gone
    | writeRefused left error => exact h.unchanged (h.live)
    | renameRefused error => exact h.unchanged (h.live)

theorem step {op : World.Op} {next : World} (h : Consistent world) (hallowed : world.Allowed op)
    (taken : World.Step path scratch world op next) : Consistent next := by
  subst taken
  cases op with
  | open_ refusal => exact h.open_ refusal
  | write record expected value now fate =>
    unfold World.act
    dsimp only
    cases hlive : world.live with
    | none => exact h
    | some state =>
      refine h.write hlive fun hlands hversion hlast => ?_
      exact (hallowed state hlive hlands).1 ⟨hversion.trans hlast, hlast⟩

theorem run {disk : Disk} {trace : List (World × World.Op)} {final : World}
    (hdisk : WellKept disk) (h : Run (World.Step path scratch) (.start disk) trace final)
    (hallowed : ∀ taken ∈ trace, taken.1.Allowed taken.2) : Consistent final :=
  h.invariant (.start hdisk) (fun _ _ _ hstate hop taken => hstate.step hop taken) hallowed

end Consistent

end LogicalWorks.Cas
