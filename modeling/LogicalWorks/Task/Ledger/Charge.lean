import LogicalWorks.Owner.Batch
import LogicalWorks.Task.Ledger.Entry

/-! The ledger's ordered step: the decision, the write it flushes itself, and the fold. -/
namespace LogicalWorks.Task.Ledger

open Journal Owner.Batch

/-- The repair ticket a charge carries, as the ledger sees it. -/
structure TicketStamp where
  identity : Bytes
  epoch : UInt64
  deriving DecidableEq, Repr

structure Charge where
  tenant : String
  run : RunId
  ticket : Option TicketStamp
  cost : UInt64
  deriving DecidableEq, Repr

structure Ceilings where
  attempts : UInt64
  spend : UInt64
  deriving DecidableEq, Repr

inductive LeaseRefusal where
  | foreignTenant (owner asked : String)
  | staleEpoch (current offered : UInt64)
  | alreadyApplied
  | budgetSpent (attempts maxAttempts : UInt64)
  deriving DecidableEq, Repr

/-- What a carried ticket does to the control state: its check against the epoch and the
applied set, and the epoch it mints. -/
def applyTicket (control : Control) : Option TicketStamp → Except LeaseRefusal (Control × Option Bytes)
  | none => .ok (control, none)
  | some stamp =>
    if stamp.epoch ≠ control.epoch then .error (.staleEpoch control.epoch stamp.epoch)
    else if stamp.identity ∈ control.applied then .error .alreadyApplied
    else
      .ok ({ control with
        epoch := saturatingAdd control.epoch 1
        applied := control.applied ++ [stamp.identity] }, some stamp.identity)

/-- The decision, over the ledger's own state: what charging the run would leave, and the
entry that would say so. -/
def decideUnder (index : Index) (charge : Charge) (ceilings : Ceilings) :
    Except LeaseRefusal (Entry × Control) :=
  let control := (index.runs.get charge.run).getD (Control.fresh charge.tenant)
  if control.tenant ≠ charge.tenant then .error (.foreignTenant control.tenant charge.tenant)
  else
    let attempts := saturatingAdd control.attempts 1
    let spend := saturatingAdd control.spend charge.cost
    if ceilings.attempts < attempts ∨ ceilings.spend < spend then
      .error (.budgetSpent attempts ceilings.attempts)
    else
      match applyTicket control charge.ticket with
      | .error refusal => .error refusal
      | .ok (control, applied) =>
        let next := { control with attempts, spend }
        .ok (⟨charge.run, charge.tenant, next.attempts, next.spend, next.epoch, applied⟩, next)

/-- What an admitted charge is: its run's own tenant asked, the ceilings hold what it leaves,
and a ticket it carries is applied for the first time. -/
structure Decided (control : Control) (charge : Charge) (ceilings : Ceilings) (entry : Entry)
    (next : Control) : Prop where
  tenant : control.tenant = charge.tenant
  attempts : next.attempts = saturatingAdd control.attempts 1
  spend : next.spend = saturatingAdd control.spend charge.cost
  attempts_le : next.attempts ≤ ceilings.attempts
  spend_le : next.spend ≤ ceilings.spend
  epoch : next.epoch =
    if entry.applied.isSome then saturatingAdd control.epoch 1 else control.epoch
  applied : next.applied = control.applied ++ entry.applied.toList
  once : ∀ ticket ∈ entry.applied, ticket ∉ control.applied
  next_tenant : next.tenant = charge.tenant
  entry_eq : entry =
    ⟨charge.run, charge.tenant, next.attempts, next.spend, next.epoch, entry.applied⟩

theorem decideUnder_ok {index : Index} {charge : Charge} {ceilings : Ceilings} {entry : Entry}
    {next : Control} (h : decideUnder index charge ceilings = .ok (entry, next)) :
    Decided ((index.runs.get charge.run).getD (Control.fresh charge.tenant)) charge ceilings
      entry next := by
  unfold decideUnder at h
  generalize (index.runs.get charge.run).getD (Control.fresh charge.tenant) = control at h ⊢
  simp only [] at h
  split at h
  · cases h
  · rename_i htenant
    split at h
    · cases h
    · rename_i hroom
      rw [not_or, UInt64.not_lt, UInt64.not_lt] at hroom
      cases hticket : charge.ticket with
      | none =>
        simp only [hticket, applyTicket] at h
        cases h
        exact ⟨not_not.mp htenant, rfl, rfl, hroom.1, hroom.2, rfl, by simp, by simp,
          not_not.mp htenant, rfl⟩
      | some stamp =>
        simp only [hticket, applyTicket] at h
        split at h
        · cases h
        · rename_i admitted applied hadmitted
          split at hadmitted
          · cases hadmitted
          · split at hadmitted
            · cases hadmitted
            · rename_i hnew
              cases hadmitted
              cases h
              exact ⟨not_not.mp htenant, rfl, rfl, hroom.1, hroom.2, rfl, by simp, by simpa using hnew,
                not_not.mp htenant, rfl⟩

theorem decideUnder_resume {index : Index} {charge : Charge} {ceilings : Ceilings}
    {control : Control}
    (hcontrol : (index.runs.get charge.run).getD (Control.fresh charge.tenant) = control)
    (hticket : charge.ticket = none) (htenant : control.tenant = charge.tenant)
    (hattempts : saturatingAdd control.attempts 1 ≤ ceilings.attempts)
    (hspend : saturatingAdd control.spend charge.cost ≤ ceilings.spend) :
    decideUnder index charge ceilings =
      .ok (⟨charge.run, charge.tenant, saturatingAdd control.attempts 1,
          saturatingAdd control.spend charge.cost, control.epoch, none⟩,
        { control with
          attempts := saturatingAdd control.attempts 1
          spend := saturatingAdd control.spend charge.cost }) := by
  have hroom : ¬ (ceilings.attempts < saturatingAdd control.attempts 1 ∨
      ceilings.spend < saturatingAdd control.spend charge.cost) := by
    rw [not_or, UInt64.not_lt, UInt64.not_lt]
    exact ⟨hattempts, hspend⟩
  unfold decideUnder
  simp only [hcontrol]
  rw [if_neg (not_not.mpr htenant), if_neg hroom, hticket]
  rfl

theorem Decided.assign {control : Control} {charge : Charge} {ceilings : Ceilings}
    {entry : Entry} {next : Control} (h : Decided control charge ceilings entry next) :
    control.assign entry = next := by
  have hentry := h.entry_eq
  have happlied : (control.assign entry).applied = next.applied := by
    rw [h.applied]
    unfold Control.assign
    cases happlied : entry.applied with
    | none => simp
    | some ticket =>
      have hnew := h.once ticket (by rw [happlied]; rfl)
      simp [hnew]
  cases next with
  | mk tenant attempts spend epoch applied =>
    have htenant := h.next_tenant
    simp only [] at htenant happlied hentry
    rw [hentry] at happlied ⊢
    simp only [Control.assign] at happlied ⊢
    rw [happlied, htenant]

structure Write where
  framed : Bytes
  head : Digest
  next : Nat

def prepareEntry (wire : Wire) (onDisk : Nat) (index : Index) (entry : Entry) :
    Except StoreError Write :=
  match (format wire).frame entry index.tail with
  | .error refusal => .error refusal
  | .ok (framed, head) =>
    let next := index.committed + framed.length
    if u64Max < next then .error (.limit .storeBytes u64Max (64 * 1024 * 1024))
    else if onDisk ≠ index.committed then .error (.corrupt 0)
    else .ok ⟨framed, head, next⟩

def writeEntry (wire : Wire) (file : PositionedFile) (index : Index) (entry : Entry) :
    Except StoreError Unit × PositionedFile × Index :=
  match prepareEntry wire file.len index entry with
  | .error refusal => (.error refusal, file, index)
  | .ok write =>
    (.ok (), file.writeAll write.framed, ⟨fold index.runs entry, write.next, write.head⟩)

inductive IoError where
  | refused (cause : LeaseRefusal)
  | text (cause : StoreError)
  | flush
  deriving DecidableEq, Repr

/-- The one ordered step: decide, write, fold, and answer the state it left behind. -/
def chargeOnOwner (wire : Wire) (charge : Charge) (ceilings : Ceilings) :
    Job PositionedFile Index Control IoError := fun file index =>
  match decideUnder index charge ceilings with
  | .error refusal => (.error (.refused refusal), file, index)
  | .ok (entry, next) =>
    match writeEntry wire file index entry with
    | (.error cause, file, index) => (.error (.text cause), file, index)
    | (.ok (), file, index) => (.ok (.committed next), file, index)

/-- What one ordered charge does: refuse without a byte moved, or write the entry it decided
and fold it. -/
inductive ChargeStep (wire : Wire) (charge : Charge) (ceilings : Ceilings)
    (file : PositionedFile) (index : Index) :
    Except IoError (Stage Index Control IoError) × PositionedFile × Index → Prop where
  | refused (refusal : LeaseRefusal) (hdecide : decideUnder index charge ceilings = .error refusal) :
      ChargeStep wire charge ceilings file index (.error (.refused refusal), file, index)
  | stopped (entry : Entry) (next : Control) (cause : StoreError)
      (hdecide : decideUnder index charge ceilings = .ok (entry, next))
      (hwrite : prepareEntry wire file.len index entry = .error cause) :
      ChargeStep wire charge ceilings file index (.error (.text cause), file, index)
  | charged (entry : Entry) (next : Control) (write : Write)
      (hdecide : decideUnder index charge ceilings = .ok (entry, next))
      (hwrite : prepareEntry wire file.len index entry = .ok write) :
      ChargeStep wire charge ceilings file index (.ok (.committed next),
        file.writeAll write.framed, ⟨fold index.runs entry, write.next, write.head⟩)

theorem chargeStep (wire : Wire) (charge : Charge) (ceilings : Ceilings) (file : PositionedFile)
    (index : Index) :
    ChargeStep wire charge ceilings file index (chargeOnOwner wire charge ceilings file index) := by
  unfold chargeOnOwner
  cases hdecide : decideUnder index charge ceilings with
  | error refusal =>
    exact .refused refusal hdecide
  | ok decided =>
    obtain ⟨entry, next⟩ := decided
    simp only [writeEntry]
    cases hwrite : prepareEntry wire file.len index entry with
    | error cause =>
      exact .stopped entry next cause hdecide hwrite
    | ok write =>
      exact .charged entry next write hdecide hwrite

theorem prepareEntry_ok {wire : Wire} (lawful : wire.Lawful) {onDisk : Nat} {index : Index}
    {entry : Entry} {write : Write} (h : prepareEntry wire onDisk index entry = .ok write) :
    ∃ read : Framed Entry, read.record = entry ∧ write.framed = read.frame.bytes ∧
      write.head = read.frame.head ∧ (format wire).Chained index.tail [read] ∧
      write.next = index.committed + write.framed.length ∧ write.next ≤ u64Max ∧
      onDisk = index.committed := by
  unfold prepareEntry at h
  cases hframe : (format wire).frame entry index.tail with
  | error refusal =>
    rw [hframe] at h
    cases h
  | ok pair =>
    rw [hframe] at h
    simp only [] at h
    split at h
    · cases h
    · rename_i hroom
      split at h
      · cases h
      · rename_i hfence
        cases h
        obtain ⟨read, hrecord, hframed, hhead, hchain⟩ :=
          Format.frame_ok (format_lawful lawful) hframe
        exact ⟨read, hrecord, hframed, hhead, hchain, rfl, Nat.le_of_not_lt hroom,
          not_not.mp hfence⟩

theorem prepareEntry_of_fits {wire : Wire} {index : Index} {entry : Entry} {payload : Bytes}
    (harchive : wire.entryToBytes entry = some payload)
    (hfits : (⟨payload, entry.headFrom wire index.tail⟩ : Frame).Fits maxLedgerRecordBytes)
    (hroom : index.committed + framedLen payload.length ≤ u64Max) :
    prepareEntry wire index.committed index entry = .ok
      ⟨(⟨payload, entry.headFrom wire index.tail⟩ : Frame).bytes, entry.headFrom wire index.tail,
        index.committed + framedLen payload.length⟩ := by
  have hframe : (format wire).frame entry index.tail = .ok
      ((⟨payload, entry.headFrom wire index.tail⟩ : Frame).bytes,
        entry.headFrom wire index.tail) := by
    refine @frameRecord_of_fits _ _ _ _ _ _
      (fun (record : Entry) previous _ => record.headFrom wire previous) _ _ ?_ hfits
    simp only [format, harchive]
  unfold prepareEntry
  rw [hframe]
  simp only [Frame.length_bytes]
  rw [if_neg (by omega), if_neg (not_not.mpr rfl)]

end LogicalWorks.Task.Ledger
