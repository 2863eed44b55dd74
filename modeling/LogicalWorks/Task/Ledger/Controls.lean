import LogicalWorks.Task.Ledger.PlainWire

/-! The controls of a ledger over whole histories: charges, crashes that leave a prefix of an
entry, and reopens.  The counters of a run are those of the entries on the file. -/
namespace LogicalWorks.Task.Ledger

open Journal Owner.Batch

variable {wire : Wire} {ceilings : Ceilings}

def ofRun (entries : List Entry) (run : RunId) : List Entry :=
  entries.filter fun entry => entry.run = run

/-- A control state accounts for its run's entries: it counts them and their tickets, holds
each ticket once, stands within the ceilings, and is its one tenant's. -/
structure Accounts (ceilings : Ceilings) (mine : List Entry) (control : Control) : Prop where
  attempts : control.attempts.toNat = mine.length
  epoch : control.epoch.toNat = (mine.filterMap Entry.applied).length
  applied : control.applied = mine.filterMap Entry.applied
  once : (mine.filterMap Entry.applied).Nodup
  attempts_le : control.attempts ≤ ceilings.attempts
  spend_le : control.spend ≤ ceilings.spend
  tenant : ∀ entry ∈ mine, entry.tenant = control.tenant

def Sound (ceilings : Ceilings) (entries : List Entry) (runs : Table RunId Control) : Prop :=
  ∀ run, (runs.get run = none → ofRun entries run = []) ∧
    ∀ control, runs.get run = some control → Accounts ceilings (ofRun entries run) control

def Risen (before after : Table RunId Control) : Prop :=
  ∀ run control, before.get run = some control → ∃ later, after.get run = some later ∧
    later.tenant = control.tenant ∧ control.attempts ≤ later.attempts ∧
    control.spend ≤ later.spend

/-- A ledger's file on the disk, and the handle while a process holds it open. -/
inductive State where
  | closed (bytes : Bytes)
  | opened (file : PositionedFile) (index : Index)
  deriving DecidableEq, Repr

/-- What happens to a ledger: an ordered charge, a crash that leaves so many bytes of the
entry a charge was writing, a reopen. -/
inductive Action where
  | charge (charge : Charge)
  | crash (during : Option (Charge × Nat))
  | reopen
  deriving DecidableEq, Repr

def interrupted (wire : Wire) (ceilings : Ceilings) (file : PositionedFile) (index : Index) :
    Option (Charge × Nat) → Bytes
  | none => file.bytes
  | some (charge, moved) =>
    match decideUnder index charge ceilings with
    | .error _ => file.bytes
    | .ok (entry, _) =>
      match prepareEntry wire file.len index entry with
      | .error _ => file.bytes
      | .ok write => (file.writeAll (write.framed.take moved)).bytes

def State.act (wire : Wire) (ceilings : Ceilings) : State → Action → State
  | .opened file index, .charge charge =>
    let (_, file, index) := chargeOnOwner wire charge ceilings file index
    .opened file index
  | .opened file index, .crash during => .closed (interrupted wire ceilings file index during)
  | .closed bytes, .reopen =>
    match openLedger wire bytes with
    | .error _ => .closed bytes
    | .ok (index, file) => .opened file index
  | .closed bytes, _ => .closed bytes
  | .opened file index, .reopen => .opened file index

def Step (wire : Wire) (ceilings : Ceilings) (state : State) (action : Action) (next : State) :
    Prop := state.act wire ceilings action = next

def Action.writes : Action → Option Charge
  | .charge asked => some asked
  | .crash (some (asked, _)) => some asked
  | .crash none | .reopen => none

/-- A charge that gets to its write finds the handle where the committed bytes end, and fewer
entries on the file than one replay reads. -/
def Appendable (wire : Wire) (ceilings : Ceilings) (state : State) (action : Action) : Prop :=
  ∀ file index charge entry next write, state = .opened file index →
    action.writes = some charge → decideUnder index charge ceilings = .ok (entry, next) →
    prepareEntry wire file.len index entry = .ok write →
    file.position = index.committed ∧
      ∀ frames, (format wire).Chained (format wire).genesis frames →
        file.bytes = (format wire).fileOf frames → frames.length < maxLedgerRecordsPerRun

theorem act_reopen_ok {bytes : Bytes} {file : PositionedFile} {index : Index}
    (h : openLedger wire bytes = .ok (index, file)) :
    (State.closed bytes).act wire ceilings .reopen = .opened file index := by
  simp only [State.act, h]

theorem act_reopen_error {bytes : Bytes} {refusal : StoreError}
    (h : openLedger wire bytes = .error refusal) :
    (State.closed bytes).act wire ceilings .reopen = .closed bytes := by
  simp only [State.act, h]

theorem toNat_saturatingAdd (left right : UInt64) :
    (saturatingAdd left right).toNat = min (left.toNat + right.toNat) u64Max := by
  unfold saturatingAdd u64Max
  split
  · rw [UInt64.toNat_add]
    omega
  · rw [UInt64.toNat_ofNat']
    omega

theorem le_saturatingAdd (left right : UInt64) : left ≤ saturatingAdd left right := by
  have hbound := left.toNat_lt
  rw [UInt64.le_iff_toNat_le, toNat_saturatingAdd]
  unfold u64Max
  omega

theorem ofRun_append (left right : List Entry) (run : RunId) :
    ofRun (left ++ right) run = ofRun left run ++ ofRun right run :=
  List.filter_append _ _

theorem accounts_fresh (ceilings : Ceilings) (tenant : String) :
    Accounts ceilings [] (Control.fresh tenant) := by
  refine ⟨rfl, rfl, rfl, List.nodup_nil, ?_, ?_, by simp⟩
  · exact UInt64.zero_le
  · exact UInt64.zero_le

theorem Accounts.charge {mine : List Entry} {control next : Control} {charge : Charge}
    {entry : Entry} (h : Accounts ceilings mine control)
    (hdecided : Decided control charge ceilings entry next) (hfew : mine.length < u64Max) :
    Accounts ceilings (mine ++ [entry]) next := by
  have htickets : (mine ++ [entry]).filterMap Entry.applied =
      mine.filterMap Entry.applied ++ entry.applied.toList := by
    rw [List.filterMap_append]
    unfold List.filterMap
    cases entry.applied with
    | none => rfl
    | some ticket => rfl
  refine ⟨?_, ?_, ?_, ?_, hdecided.attempts_le, hdecided.spend_le, ?_⟩
  · rw [hdecided.attempts, toNat_saturatingAdd, h.attempts, List.length_append]
    change min (mine.length + 1) u64Max = mine.length + 1
    omega
  · have hcount : (mine.filterMap Entry.applied).length ≤ mine.length :=
      List.length_filterMap_le _ _
    rw [htickets, List.length_append, hdecided.epoch]
    cases entry.applied with
    | none => exact h.epoch
    | some ticket =>
      rw [Option.isSome_some, if_pos rfl, toNat_saturatingAdd, h.epoch]
      change min ((mine.filterMap Entry.applied).length + 1) u64Max =
        (mine.filterMap Entry.applied).length + 1
      omega
  · rw [htickets, hdecided.applied, h.applied]
  · rw [htickets, List.nodup_append]
    refine ⟨h.once, ?_, ?_⟩
    · cases entry.applied with
      | none => exact List.nodup_nil
      | some ticket => exact List.nodup_singleton ticket
    · intro earlier hearlier ticket hticket hsame
      rw [Option.mem_toList] at hticket
      refine hdecided.once ticket hticket ?_
      rw [h.applied, ← hsame]
      exact hearlier
  · intro other hother
    rw [hdecided.next_tenant]
    rcases List.mem_append.mp hother with hmine | hlast
    · rw [h.tenant other hmine, hdecided.tenant]
    · rw [List.mem_singleton.mp hlast, hdecided.entry_eq]

theorem Decided.rises {control next : Control} {charge : Charge} {entry : Entry}
    (h : Decided control charge ceilings entry next) :
    next.tenant = control.tenant ∧ control.attempts ≤ next.attempts ∧
      control.spend ≤ next.spend := by
  refine ⟨h.next_tenant.trans h.tenant.symm, ?_, ?_⟩
  · rw [h.attempts]
    exact le_saturatingAdd _ _
  · rw [h.spend]
    exact le_saturatingAdd _ _

theorem Risen.refl (runs : Table RunId Control) : Risen runs runs := by
  intro run control h
  exact ⟨control, h, rfl, UInt64.le_refl _, UInt64.le_refl _⟩

theorem Sound.charge {entries : List Entry} {index : Index} {charge : Charge} {entry : Entry}
    {next : Control} (h : Sound ceilings entries index.runs)
    (hdecide : decideUnder index charge ceilings = .ok (entry, next))
    (hfew : entries.length < u64Max) :
    Sound ceilings (entries ++ [entry]) (fold index.runs entry) := by
  have hdecided := decideUnder_ok hdecide
  have hrun : entry.run = charge.run := by rw [hdecided.entry_eq]
  have htenant : entry.tenant = charge.tenant := by rw [hdecided.entry_eq]
  have hassign := hdecided.assign
  intro run
  unfold fold
  rw [Table.get_insert, ofRun_append, hrun, htenant, hassign]
  split
  · rename_i hmine
    refine ⟨by simp, ?_⟩
    intro control hcontrol
    cases hcontrol
    have hone : ofRun [entry] run = [entry] := by simp [ofRun, hrun, hmine]
    rw [hone, hmine]
    refine Accounts.charge ?_ hdecided ?_
    · cases hbefore : index.runs.get charge.run with
      | none =>
        rw [(h charge.run).1 hbefore]
        exact accounts_fresh ceilings charge.tenant
      | some before => exact (h charge.run).2 before hbefore
    · exact Nat.lt_of_le_of_lt (List.length_filter_le _ _) hfew
  · rename_i hother
    have hnone : ofRun [entry] run = [] := by simp [ofRun, hrun, Ne.symm hother]
    rw [hnone, List.append_nil]
    exact h run

theorem Risen.charge {before : Table RunId Control} {index : Index} {charge : Charge}
    {entry : Entry} {next : Control} (h : Risen before index.runs)
    (hdecide : decideUnder index charge ceilings = .ok (entry, next)) :
    Risen before (fold index.runs entry) := by
  have hdecided := decideUnder_ok hdecide
  have hrun : entry.run = charge.run := by rw [hdecided.entry_eq]
  have htenant : entry.tenant = charge.tenant := by rw [hdecided.entry_eq]
  intro run control hcontrol
  obtain ⟨later, hlater, hsame, hattempts, hspend⟩ := h run control hcontrol
  unfold fold
  rw [Table.get_insert, hrun, htenant, hdecided.assign]
  split
  · rename_i hmine
    rw [← hmine, hlater] at hdecided
    obtain ⟨hkept, hmore, hcost⟩ := hdecided.rises
    exact ⟨next, rfl, hkept.trans hsame, UInt64.le_trans hattempts hmore,
      UInt64.le_trans hspend hcost⟩
  · exact ⟨later, hlater, hsame, hattempts, hspend⟩

/-- The state a ledger reached: whole chained frames whose entries its index accounts for, and
no run of `before` lowered.  A closed file may end in less than a frame. -/
structure Kept (wire : Wire) (ceilings : Ceilings) (before : Table RunId Control)
    (frames : List (Framed Entry)) (state : State) : Prop where
  chained : (format wire).Chained (format wire).genesis frames
  few : frames.length ≤ maxLedgerRecordsPerRun
  sound : Sound ceilings (frames.map Framed.record) (frames.foldl foldEntry .empty)
  risen : Risen before (frames.foldl foldEntry .empty)
  opened : ∀ file index, state = .opened file index →
    file.bytes = (format wire).fileOf frames ∧ file.bytes.length ≤ file.position ∧
      index = indexFor wire frames
  closed : ∀ bytes, state = .closed bytes → bytes = [] ∧ frames = [] ∨
    ∃ cut, bytes = (format wire).fileOf frames ++ cut ∧
      Format.Cut maxLedgerRecordBytes cut

theorem Kept.extend (lawful : wire.Lawful) {before : Table RunId Control}
    {frames : List (Framed Entry)} {file : PositionedFile} {index : Index} {charge : Charge}
    {entry : Entry} {next : Control} {write : Write}
    (kept : Kept wire ceilings before frames (.opened file index))
    (hdecide : decideUnder index charge ceilings = .ok (entry, next))
    (hwrite : prepareEntry wire file.len index entry = .ok write)
    (hposition : file.position = index.committed) (hfew : frames.length < maxLedgerRecordsPerRun) :
    ∃ read : Framed Entry, write.framed = read.frame.bytes ∧
      read.frame.Fits maxLedgerRecordBytes ∧ file.position = file.bytes.length ∧
      Kept wire ceilings before (frames ++ [read]) (.opened (file.writeAll write.framed)
        ⟨fold index.runs entry, write.next, write.head⟩) := by
  obtain ⟨read, hrecord, hframed, hhead, hchain, hnext, hbound, hlen⟩ :=
    prepareEntry_ok lawful hwrite
  obtain ⟨hbytes, -, hindex⟩ := kept.opened file index rfl
  have hend : file.position = file.bytes.length := hposition.trans hlen.symm
  have hfits : read.frame.Fits maxLedgerRecordBytes := hchain.2.2.1
  have hruns : index.runs = frames.foldl foldEntry .empty := by rw [hindex]; rfl
  have hfile : (file.writeAll write.framed).bytes = (format wire).fileOf (frames ++ [read]) := by
    rw [PositionedFile.writeAll_at_end hend, Format.fileOf_snoc, ← hbytes, ← hframed]
  have hfold : (frames ++ [read]).foldl foldEntry .empty = fold index.runs entry := by
    rw [List.foldl_append, ← hruns]
    simp [foldEntry, hrecord]
  have hmany : (frames.map Framed.record).length < u64Max := by
    rw [List.length_map]
    unfold maxLedgerRecordsPerRun at hfew
    unfold u64Max
    omega
  refine ⟨read, hframed, hfits, hend, ?_, ?_, ?_, ?_, ?_, ?_⟩
  · rw [Format.chained_append]
    refine ⟨kept.chained, ?_⟩
    rw [hindex] at hchain
    exact hchain
  · rw [List.length_append, List.length_singleton]
    omega
  · have hsound := kept.sound
    rw [← hruns] at hsound
    rw [hfold, List.map_append, List.map_singleton, hrecord]
    exact hsound.charge hdecide hmany
  · have hrisen := kept.risen
    rw [← hruns] at hrisen
    rw [hfold]
    exact hrisen.charge hdecide
  · intro _ _ hsame
    cases hsame
    refine ⟨hfile, ?_, ?_⟩
    · rw [PositionedFile.writeAll_at_end hend]
      simp
    · unfold indexFor indexOf Format.replayOf
      simp only []
      rw [hfold, ← Format.length_fileOf, ← hfile, PositionedFile.writeAll_at_end hend, hnext]
      congr 1
      · rw [List.length_append, ← PositionedFile.len, hlen]
      · rw [List.foldl_append, hhead]
        rfl
  · intro bytes hsame
    cases hsame

theorem Kept.charge (lawful : wire.Lawful) {before : Table RunId Control}
    {frames : List (Framed Entry)} {file : PositionedFile} {index : Index} {charge : Charge}
    (kept : Kept wire ceilings before frames (.opened file index))
    (happend : Appendable wire ceilings (.opened file index) (.charge charge)) :
    ∃ more, Kept wire ceilings before (frames ++ more)
      ((State.opened file index).act wire ceilings (.charge charge)) := by
  have hstep := chargeStep wire charge ceilings file index
  change ∃ more, Kept wire ceilings before (frames ++ more)
    (.opened (chargeOnOwner wire charge ceilings file index).2.1
      (chargeOnOwner wire charge ceilings file index).2.2)
  generalize chargeOnOwner wire charge ceilings file index = result at hstep
  cases hstep with
  | refused refusal _ =>
    refine ⟨[], ?_⟩
    rw [List.append_nil]
    exact kept
  | stopped entry next cause _ _ =>
    refine ⟨[], ?_⟩
    rw [List.append_nil]
    exact kept
  | charged entry next write hdecide hwrite =>
    obtain ⟨hposition, hfew⟩ := happend file index charge _ _ _ rfl rfl hdecide hwrite
    obtain ⟨read, -, -, -, hkept⟩ := kept.extend lawful hdecide hwrite hposition
      (hfew frames kept.chained (kept.opened file index rfl).1)
    exact ⟨[read], hkept⟩

theorem Kept.crash (lawful : wire.Lawful) {before : Table RunId Control}
    {frames : List (Framed Entry)} {file : PositionedFile} {index : Index}
    {during : Option (Charge × Nat)} (kept : Kept wire ceilings before frames (.opened file index))
    (happend : Appendable wire ceilings (.opened file index) (.crash during)) :
    ∃ more, Kept wire ceilings before (frames ++ more)
      ((State.opened file index).act wire ceilings (.crash during)) := by
  have hopened := (kept.opened file index rfl).1
  have hclosed : ∀ cut, Format.Cut maxLedgerRecordBytes cut →
      Kept wire ceilings before (frames ++ []) (.closed (file.bytes ++ cut)) := by
    intro cut hcut
    rw [List.append_nil]
    refine ⟨kept.chained, kept.few, kept.sound, kept.risen, ?_, ?_⟩
    · intro _ _ hsame
      cases hsame
    · intro bytes hsame
      cases hsame
      exact .inr ⟨cut, by rw [hopened], hcut⟩
  have hsame := hclosed [] (Format.cut_nil (by decide))
  rw [List.append_nil file.bytes] at hsame
  change ∃ more, Kept wire ceilings before (frames ++ more)
    (.closed (interrupted wire ceilings file index during))
  unfold interrupted
  cases during with
  | none => exact ⟨[], hsame⟩
  | some torn =>
    obtain ⟨charge, moved⟩ := torn
    cases hdecide : decideUnder index charge ceilings with
    | error refusal =>
      simp only [hdecide]
      exact ⟨[], hsame⟩
    | ok decided =>
      obtain ⟨entry, next⟩ := decided
      cases hwrite : prepareEntry wire file.len index entry with
      | error cause =>
        simp only [hdecide, hwrite]
        exact ⟨[], hsame⟩
      | ok write =>
        simp only [hdecide, hwrite]
        obtain ⟨hposition, hfew⟩ := happend file index charge _ _ _ rfl rfl hdecide hwrite
        obtain ⟨read, hframed, hfits, hend, hkept⟩ := kept.extend lawful hdecide hwrite
          hposition (hfew frames kept.chained hopened)
        by_cases hwhole : write.framed.length ≤ moved
        · -- the whole entry is on the file, though nobody was told
          rw [List.take_of_length_le hwhole]
          refine ⟨[read], hkept.chained, hkept.few, hkept.sound, hkept.risen, ?_, ?_⟩
          · intro _ _ hother
            cases hother
          · intro bytes hother
            cases hother
            refine .inr ⟨[], ?_, Format.cut_nil (by decide)⟩
            rw [List.append_nil]
            exact (hkept.opened _ _ rfl).1
        · rw [PositionedFile.writeAll_at_end hend]
          refine ⟨[], hclosed _ ⟨read.frame, hfits, ?_, ?_⟩⟩
          · rw [hframed]
            exact List.take_prefix _ _
          · rw [← hframed, List.length_take]
            omega

theorem Kept.reopen (lawful : wire.Lawful) {before : Table RunId Control}
    {frames : List (Framed Entry)} {bytes : Bytes}
    (kept : Kept wire ceilings before frames (.closed bytes)) :
    Kept wire ceilings before frames ((State.closed bytes).act wire ceilings .reopen) := by
  have hopen : ∀ file : PositionedFile, file.bytes = (format wire).fileOf frames →
      file.bytes.length ≤ file.position → Kept wire ceilings before frames
        (.opened file (indexFor wire frames)) := by
    intro file hbytes hposition
    refine ⟨kept.chained, kept.few, kept.sound, kept.risen, ?_, ?_⟩
    · intro _ _ hsame
      cases hsame
      exact ⟨hbytes, hposition, rfl⟩
    · intro _ hsame
      cases hsame
  rcases kept.closed bytes rfl with ⟨rfl, rfl⟩ | ⟨cut, rfl, hcut⟩
  · rw [act_reopen_ok (openLedger_nil lawful)]
    exact hopen _ rfl (Nat.le_refl _)
  · rcases openLedger_cut lawful kept.chained kept.few hcut with
      ⟨refusal, hrefused⟩ | hopened
    · rw [act_reopen_error hrefused]
      exact kept
    · rw [act_reopen_ok hopened]
      exact hopen _ rfl (Nat.le_add_right _ _)

theorem Kept.act (lawful : wire.Lawful) {before : Table RunId Control}
    {frames : List (Framed Entry)} {state : State} {action : Action}
    (kept : Kept wire ceilings before frames state)
    (happend : Appendable wire ceilings state action) :
    ∃ more, Kept wire ceilings before (frames ++ more) (state.act wire ceilings action) := by
  have hstill : ∃ more, Kept wire ceilings before (frames ++ more) state :=
    ⟨[], by rw [List.append_nil]; exact kept⟩
  cases state with
  | closed bytes =>
    cases action with
    | charge charge => exact hstill
    | crash during => exact hstill
    | reopen => exact ⟨[], by rw [List.append_nil]; exact kept.reopen lawful⟩
  | opened file index =>
    cases action with
    | charge charge => exact kept.charge lawful happend
    | crash during => exact kept.crash lawful happend
    | reopen => exact hstill

theorem kept_of_run (lawful : wire.Lawful) {before : Table RunId Control} {start final : State}
    {trace : List (State × Action)} (run : Run (Step wire ceilings) start trace final)
    (hstart : ∃ frames, Kept wire ceilings before frames start)
    (happend : ∀ taken ∈ trace, Appendable wire ceilings taken.1 taken.2) :
    ∃ frames, Kept wire ceilings before frames final := by
  refine run.invariant (I := fun state => ∃ frames, Kept wire ceilings before frames state)
    hstart ?_ happend
  rintro state action next ⟨frames, hkept⟩ hallowed hstep
  rw [← hstep]
  obtain ⟨more, hnext⟩ := hkept.act lawful hallowed
  exact ⟨frames ++ more, hnext⟩

/-- At every open moment of a history whose charges append where the committed bytes end, the
file is a chain of entries, the index accounts for them within the ceilings, a replay of the
file returns that index, and no run stands lower than at any earlier open moment. -/
theorem controls_kept (lawful : wire.Lawful) {trace : List (State × Action)}
    {file : PositionedFile} {index : Index}
    (run : Run (Step wire ceilings) (.closed []) trace (.opened file index))
    (happend : ∀ taken ∈ trace, Appendable wire ceilings taken.1 taken.2) :
    ∃ frames, (format wire).Chained (format wire).genesis frames ∧
      file.bytes = (format wire).fileOf frames ∧
      Sound ceilings (frames.map Framed.record) index.runs ∧
      (∃ after, replay wire ⟨file.bytes, 0⟩ = .ok (index, after)) ∧
      ∀ taken ∈ trace, ∀ earlier held, taken.1 = .opened earlier held →
        Risen held.runs index.runs := by
  have hempty : Kept wire ceilings .empty [] (.closed []) := by
    refine ⟨trivial, Nat.zero_le _, ?_, Risen.refl _, ?_, ?_⟩
    · intro asked
      refine ⟨fun _ => rfl, ?_⟩
      intro control hcontrol
      cases hcontrol
    · intro _ _ hsame
      cases hsame
    · intro bytes hsame
      cases hsame
      exact .inl ⟨rfl, rfl⟩
  obtain ⟨frames, hkept⟩ := kept_of_run lawful run ⟨[], hempty⟩ happend
  obtain ⟨hbytes, -, hindex⟩ := hkept.opened file index rfl
  have hruns : index.runs = frames.foldl foldEntry .empty := by rw [hindex]; rfl
  refine ⟨frames, hkept.chained, hbytes, ?_, ?_, ?_⟩
  · rw [hruns]
    exact hkept.sound
  · rw [hindex]
    exact ⟨_, replay_fileOf lawful hkept.chained hkept.few hbytes⟩
  · intro taken htaken earlier held hsame
    obtain ⟨left, right, rfl, hleft, hright⟩ := run.cut htaken
    obtain ⟨frames₀, hthen⟩ := kept_of_run lawful hleft ⟨[], hempty⟩
      (fun step hstep => happend step (List.mem_append_left _ hstep))
    rw [hsame] at hthen hright
    obtain ⟨-, -, hheld⟩ := hthen.opened earlier held rfl
    have hagain : Kept wire ceilings held.runs frames₀ (.opened earlier held) := by
      refine ⟨hthen.chained, hthen.few, hthen.sound, ?_, hthen.opened, hthen.closed⟩
      rw [hheld]
      exact Risen.refl _
    obtain ⟨frames₁, hlast⟩ := kept_of_run lawful hright ⟨frames₀, hagain⟩
      (fun step hstep => happend step (List.mem_append_right _ hstep))
    obtain ⟨-, -, hfinal⟩ := hlast.opened file index rfl
    rw [hfinal]
    exact hlast.risen

namespace PlainWire

def first : Charge := ⟨"a", 1, some ⟨[5], 0⟩, 1⟩

def chargedOnce : List Action := [.reopen, .charge first]

def chargedBehindTear : List Action :=
  [.reopen, .charge first, .crash (some (attempt 1 "a", 1)), .reopen, .charge (attempt 1 "a")]

theorem controls_kept_once : ∃ file index frames,
    chargedOnce.foldl (State.act plain wide) (.closed []) = .opened file index ∧
      file.bytes = (format plain).fileOf frames ∧
      Sound wide (frames.map Framed.record) index.runs ∧
      ∃ after, replay plain ⟨file.bytes, 0⟩ = .ok (index, after) := by
  have hrun : Run (Step plain wide) (.closed []) (traceOf (State.act plain wide)
      (.closed []) chargedOnce) (chargedOnce.foldl (State.act plain wide) (.closed [])) :=
    Run.ofActions _ _ _
  have hmade : (State.closed []).act plain wide .reopen = .opened
      ⟨(format plain).fileOf [], ((format plain).fileOf []).length⟩ (indexFor plain []) :=
    act_reopen_ok (openLedger_nil lawful)
  have happend : ∀ taken ∈ traceOf (State.act plain wide) (.closed []) chargedOnce,
      Appendable plain wide taken.1 taken.2 := by
    intro taken htaken
    rcases List.mem_cons.mp htaken with rfl | htaken
    · intro file index charge entry next write hstate
      cases hstate
    · rw [List.mem_singleton.mp htaken, hmade]
      intro file index charge entry next write hstate _ _ _
      cases hstate
      refine ⟨Format.length_fileOf [], ?_⟩
      intro frames _ hbytes
      have hlength := congrArg List.length hbytes
      have hfew := Format.length_le_framesBytes (frames.map Framed.frame)
      rw [Format.length_fileOf, Format.length_fileOf, List.map_nil, framesBytes_nil,
        List.length_nil] at hlength
      rw [List.length_map] at hfew
      unfold maxLedgerRecordsPerRun
      omega
  have hopen : chargedOnce.foldl (State.act plain wide) (.closed []) =
      ((State.closed []).act plain wide .reopen).act plain wide (.charge first) := rfl
  rw [hmade] at hopen
  have hlast : ∃ file index, chargedOnce.foldl (State.act plain wide) (.closed []) =
      .opened file index := ⟨_, _, hopen⟩
  obtain ⟨file, index, hfinal⟩ := hlast
  rw [hfinal] at hrun
  obtain ⟨frames, -, hbytes, hsound, hreplay, -⟩ := controls_kept lawful hrun happend
  exact ⟨file, index, frames, hfinal, hbytes, hsound, hreplay⟩

def held : State → Option (PositionedFile × Index)
  | .closed _ => none
  | .opened file index => some (file, index)

/-- Two attempts are charged and answered, and the file replays to neither. -/
theorem charge_behind_tear :
    (held (chargedBehindTear.foldl (State.act plain wide) (.closed []))).map
        (fun handle => (handle.2.runs.get 1).map Control.attempts) = some (some 2) ∧
      (held (chargedBehindTear.foldl (State.act plain wide) (.closed []))).map
        (fun handle => replay plain ⟨handle.1.bytes, 0⟩) = some (.error (.corrupt 1)) := by
  decide +kernel

end PlainWire

end LogicalWorks.Task.Ledger
