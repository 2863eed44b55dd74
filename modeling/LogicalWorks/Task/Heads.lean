import LogicalWorks.Lib.Framed
import LogicalWorks.Task.Ledger.Entry
import LogicalWorks.Task.Store.Record
import LogicalWorks.Tenant.Record
import Mathlib.Data.Set.List

/-! What the chain heads of the three stores commit to: the bytes each feeds to the hasher, and
the records those bytes can come from. -/
namespace LogicalWorks.Task

open Journal

section Spelling

theorem toList_loop (bytes : ByteArray) (place : Nat) (before : Bytes) :
    ByteArray.toList.loop bytes place before = before.reverse ++ bytes.data.toList.drop place := by
  fun_induction ByteArray.toList.loop bytes place before with
  | case1 place before hlt ih =>
    have hsize : place < bytes.data.toList.length := hlt
    have hget : bytes.get! place = bytes.data.toList[place] := getElem!_pos bytes.data place hlt
    rw [ih, List.reverse_cons, List.append_assoc, hget, List.singleton_append,
      List.getElem_cons_drop]
  | case2 place before hle =>
    have hsize : bytes.data.toList.length ≤ place := Nat.le_of_not_lt hle
    rw [List.drop_eq_nil_of_le hsize, List.append_nil]

theorem utf8_eq (text : String) : utf8 text = text.toByteArray.data.toList :=
  toList_loop text.toByteArray 0 []

theorem utf8_injective : Function.Injective utf8 := by
  intro left right h
  rw [utf8_eq, utf8_eq] at h
  exact String.toByteArray_inj.mp (ByteArray.ext (Array.toList_inj.mp h))

theorem littleEndian_inj {count left right : Nat} (hleft : left < 256 ^ count)
    (hright : right < 256 ^ count)
    (h : Bytes.littleEndian count left = Bytes.littleEndian count right) : left = right := by
  rw [← Bytes.ofLittleEndian_littleEndian hleft, h, Bytes.ofLittleEndian_littleEndian hright]

theorem u64LE_injective : Function.Injective u64LE := by
  intro left right h
  exact UInt64.toNat_inj.mp (littleEndian_inj left.toNat_lt right.toNat_lt h)

theorem u128BE_inj {left right : Nat} (hleft : left < 2 ^ 128) (hright : right < 2 ^ 128)
    (h : u128BE left = u128BE right) : left = right :=
  littleEndian_inj hleft hright (List.reverse_injective h)

def Fits (fields : List Bytes) : Prop := ∀ field ∈ fields, field.length < 2 ^ 64

theorem framed_prefixFree :
    PrefixFree fun field : { field : Bytes // field.length < 2 ^ 64 } => framed field.1 := by
  rintro ⟨left, hleft⟩ ⟨right, hright⟩ rest rest' h
  simp only [framed, List.append_assoc] at h
  obtain ⟨hlength, hbehind⟩ := List.append_inj h (by simp)
  obtain ⟨hfield, hrest⟩ := List.append_inj hbehind (littleEndian_inj hleft hright hlength)
  exact ⟨Subtype.ext hfield, hrest⟩

theorem fed_injective {left right : List Bytes} (hleft : Fits left) (hright : Fits right)
    (h : left.flatMap framed = right.flatMap framed) : left = right := by
  lift left to List { field : Bytes // field.length < 2 ^ 64 } using hleft
  lift right to List { field : Bytes // field.length < 2 ^ 64 } using hright
  rw [List.flatMap_map, List.flatMap_map] at h
  have hne : ∀ field : { field : Bytes // field.length < 2 ^ 64 }, framed field.1 ≠ [] := by
    intro field hnil
    have hlength := congrArg List.length hnil
    simp [framed] at hlength
  rw [framed_prefixFree.flatMap_injective hne h]

end Spelling

def Commits {R : Type} (held : Digest → R → Prop) (fed : Digest → R → Bytes) : Prop :=
  ∀ previous previous' record record', held previous record → held previous' record' →
    fed previous record = fed previous' record' → previous = previous' ∧ record = record'

theorem digest_ext {left right : Digest} (h : left.bytes = right.bytes) : left = right := by
  cases left
  cases right
  cases h
  rfl

end LogicalWorks.Task

namespace LogicalWorks.Tenant

open Journal LogicalWorks.Task

def Stored.fields (previous : Digest) (record : Stored) : List Bytes :=
  [previous.bytes, [record.kind], utf8 record.tenant, utf8 record.runId, utf8 record.repo,
    utf8 record.host, Bytes.littleEndian 4 record.coordinatorPid.toNat,
    utf8 record.coordinatorLock, utf8 record.moment] ++ record.lanes.map utf8 ++
  [u64LE record.laneIdx, utf8 record.verdict, utf8 record.record, utf8 record.sealed,
    utf8 record.outcome, utf8 record.detail, record.tail, utf8 record.gatesJson,
    [record.hardness]]

def Stored.fed (previous : Digest) (record : Stored) : Bytes :=
  (record.fields previous).flatMap framed

/-- Nine fields stand ahead of the lanes and nine behind them, so the lanes are those between. -/
theorem Stored.commits :
    Commits (fun previous record => Fits (Stored.fields previous record)) Stored.fed := by
  intro previous previous' record record' hfits hfits' h
  have hfields := fed_injective hfits hfits' h
  unfold Stored.fields at hfields
  obtain ⟨hahead, hbehind⟩ := List.append_inj' hfields rfl
  obtain ⟨hfirst, hlanes⟩ := List.append_inj hahead rfl
  have hsame := List.map_injective_iff.mpr utf8_injective hlanes
  simp only [List.cons.injEq, utf8_injective.eq_iff, and_true] at hfirst
  simp only [List.cons.injEq, utf8_injective.eq_iff, u64LE_injective.eq_iff, and_true] at hbehind
  obtain ⟨hprevious, hkind, htenant, hrun, hrepo, hhost, hpid, hlock, hmoment⟩ := hfirst
  obtain ⟨hidx, hverdict, hrecord, hsealed, houtcome, hdetail, htail, hgates, hhardness⟩ := hbehind
  have hpid := UInt32.toNat_inj.mp (littleEndian_inj record.coordinatorPid.toNat_lt
    record'.coordinatorPid.toNat_lt hpid)
  refine ⟨digest_ext hprevious, ?_⟩
  cases record
  cases record'
  simp_all

end LogicalWorks.Tenant

namespace LogicalWorks.Task.Store

open Journal

def Stored.fields (previous : Digest) (stored : Stored) : List Bytes :=
  [previous.bytes, utf8 (hexOf (u128BE stored.run)), stored.key, utf8 stored.tenant,
    utf8 stored.path, utf8 stored.definition.name, u64LE stored.definition.revision,
    stored.definition.input, u64LE stored.definition.steps, utf8 stored.definition.codec,
    stored.value]

def Stored.fed (previous : Digest) (stored : Stored) : Bytes :=
  (stored.fields previous).flatMap framed

theorem Stored.commits :
    Commits (fun previous stored => Fits (Stored.fields previous stored) ∧ stored.run < 2 ^ 128)
      Stored.fed := by
  intro previous previous' stored stored' hheld hheld' h
  have hfields := fed_injective hheld.1 hheld'.1 h
  simp only [Stored.fields, List.cons.injEq, utf8_injective.eq_iff, u64LE_injective.eq_iff,
    and_true] at hfields
  obtain ⟨hprevious, hrun, hkey, htenant, hpath, hname, hrevision, hinput, hsteps, hcodec, hvalue⟩ :=
    hfields
  have hrun := u128BE_inj hheld.2 hheld'.2 (hexOf_inj hrun)
  refine ⟨digest_ext hprevious, ?_⟩
  obtain ⟨run, key, tenant, path, definition, value⟩ := stored
  obtain ⟨run', key', tenant', path', definition', value'⟩ := stored'
  cases definition
  cases definition'
  simp_all

end LogicalWorks.Task.Store

namespace LogicalWorks.Task.Ledger

open Journal

def Entry.fields (previous : Digest) (entry : Entry) : List Bytes :=
  [previous.bytes, utf8 (hexOf (u128BE entry.run)), utf8 entry.tenant, u64LE entry.attempts,
    u64LE entry.spend, u64LE entry.epoch, entry.applied.getD []]

def Entry.fed (previous : Digest) (entry : Entry) : Bytes :=
  (entry.fields previous).flatMap framed

def TicketBlurred (entry entry' : Entry) : Prop :=
  (entry.applied = none ∧ entry' = { entry with applied := some [] }) ∨
    (entry'.applied = none ∧ entry = { entry' with applied := some [] })

theorem Entry.fed_eq_iff {previous previous' : Digest} {entry entry' : Entry}
    (hheld : Fits (entry.fields previous) ∧ entry.run < 2 ^ 128)
    (hheld' : Fits (entry'.fields previous') ∧ entry'.run < 2 ^ 128) :
    entry.fed previous = entry'.fed previous' ↔
      previous = previous' ∧ (entry = entry' ∨ TicketBlurred entry entry') := by
  constructor
  · intro h
    have hfields := fed_injective hheld.1 hheld'.1 h
    simp only [Entry.fields, List.cons.injEq, utf8_injective.eq_iff, u64LE_injective.eq_iff,
      and_true] at hfields
    obtain ⟨hprevious, hrun, htenant, hattempts, hspend, hepoch, happlied⟩ := hfields
    have hrun := u128BE_inj hheld.2 hheld'.2 (hexOf_inj hrun)
    refine ⟨digest_ext hprevious, ?_⟩
    obtain ⟨run, tenant, attempts, spend, epoch, applied⟩ := entry
    obtain ⟨run', tenant', attempts', spend', epoch', applied'⟩ := entry'
    dsimp only at hrun htenant hattempts hspend hepoch happlied
    subst hrun htenant hattempts hspend hepoch
    cases applied with
    | none =>
      cases applied' with
      | none => exact .inl rfl
      | some ticket =>
        have hempty : ticket = [] := happlied.symm
        subst hempty
        exact .inr (.inl ⟨rfl, rfl⟩)
    | some ticket =>
      cases applied' with
      | none =>
        have hempty : ticket = [] := happlied
        subst hempty
        exact .inr (.inr ⟨rfl, rfl⟩)
      | some ticket' =>
        have hsame : ticket = ticket' := happlied
        rw [hsame]
        exact .inl rfl
  · rintro ⟨rfl, rfl | ⟨happlied, rfl⟩ | ⟨happlied, rfl⟩⟩
    · rfl
    · simp [Entry.fed, Entry.fields, happlied]
    · simp [Entry.fed, Entry.fields, happlied]

/-- The heads of the tenant store and of the run store commit to the whole record; that of the
ledger does but for a ticket that is absent or empty. -/
theorem heads_commit_iff {previous previous' : Digest} {entry entry' : Entry}
    (hheld : Fits (entry.fields previous) ∧ entry.run < 2 ^ 128)
    (hheld' : Fits (entry'.fields previous') ∧ entry'.run < 2 ^ 128) :
    Commits (fun previous record => Fits (Tenant.Stored.fields previous record))
        Tenant.Stored.fed ∧
      Commits (fun previous stored => Fits (Store.Stored.fields previous stored) ∧
        stored.run < 2 ^ 128) Store.Stored.fed ∧
      ((entry.fed previous = entry'.fed previous' → previous = previous' ∧ entry = entry') ↔
        ¬(previous = previous' ∧ TicketBlurred entry entry')) := by
  refine ⟨Tenant.Stored.commits, Store.Stored.commits, ?_⟩
  rw [Entry.fed_eq_iff hheld hheld']
  constructor
  · rintro h ⟨hprevious, hblurred⟩
    obtain ⟨-, rfl⟩ := h ⟨hprevious, .inr hblurred⟩
    rcases hblurred with ⟨happlied, hsame⟩ | ⟨happlied, hsame⟩
    · rw [hsame] at happlied
      cases happlied
    · rw [hsame] at happlied
      cases happlied
  · rintro h ⟨hprevious, hsame | hblurred⟩
    · exact ⟨hprevious, hsame⟩
    · exact absurd ⟨hprevious, hblurred⟩ h

section Ticket

def absentTicket : Entry := ⟨7, "", 1, 1, 1, none⟩

def emptyTicket : Entry := ⟨7, "", 1, 1, 1, some []⟩

def noHead : Digest := ⟨List.replicate headBytes 0, List.length_replicate⟩

theorem empty_ticket_unseen :
    absentTicket.fed noHead = emptyTicket.fed noHead ∧ absentTicket ≠ emptyTicket :=
  ⟨rfl, by decide⟩

def numberedTicket : Entry := ⟨7, "", 1, 1, 1, some [1]⟩

theorem fits_seven (applied : Option Bytes) (h : (applied.getD []).length < 2 ^ 64) :
    Fits (Entry.fields noHead ⟨7, "", 1, 1, 1, applied⟩) := by
  intro field hfield
  simp only [Entry.fields, List.mem_cons, List.not_mem_nil, or_false] at hfield
  rcases hfield with rfl | rfl | rfl | rfl | rfl | rfl | rfl
  · decide
  · rw [utf8_eq]
    decide
  · rw [utf8_eq]
    decide
  · decide
  · decide
  · decide
  · exact h

theorem numbered_ticket_seen : absentTicket.fed noHead ≠ numberedTicket.fed noHead := by
  have hclear : ¬(noHead = noHead ∧ TicketBlurred absentTicket numberedTicket) := by
    rintro ⟨-, ⟨-, hsame⟩ | ⟨hnone, -⟩⟩
    · exact absurd (congrArg Entry.applied hsame) (by decide)
    · exact absurd hnone (by decide)
  have hheld : Fits (absentTicket.fields noHead) ∧ absentTicket.run < 2 ^ 128 :=
    ⟨fits_seven none (by decide), by decide⟩
  have hheld' : Fits (numberedTicket.fields noHead) ∧ numberedTicket.run < 2 ^ 128 :=
    ⟨fits_seven (some [1]) (by decide), by decide⟩
  intro hfed
  have hsame := ((heads_commit_iff hheld hheld').2.2.mpr hclear hfed).2
  exact absurd hsame (by decide)

end Ticket

end LogicalWorks.Task.Ledger
