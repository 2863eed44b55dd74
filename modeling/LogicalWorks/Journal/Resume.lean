import LogicalWorks.Lib.Run
import LogicalWorks.Journal.Handover

/-! A predecessor that resumes behind its own seal.  The writer appends there as it does
anywhere else, and the reader refuses whatever stands there. -/
namespace LogicalWorks.Journal

inductive Call where
  | append (expectedTail : JournalPosition) (event : EffectEvent)
  | continueAsFile
  deriving DecidableEq, Repr

/-- The calls a handle accepts.  An accepted continuation leaves the caller with the
successor, and a handle that does not continue leaves it with what it held. -/
inductive Accepted (wire : Wire) : Handle → Call → Handle → Prop where
  | append {handle next : Handle} {tail : JournalPosition} {event : EffectEvent}
      {ack : DurableAck} (h : handle.compareAndAppend wire tail event = (.ok ack, next)) :
      Accepted wire handle (.append tail event) next
  | idle {handle next : Handle} (h : handle.continueAsFile wire = (.ok none, next)) :
      Accepted wire handle .continueAsFile next
  | continued {handle closed : Handle} {opened : FileJournal}
      (h : handle.continueAsFile wire = (.ok (some opened), closed)) :
      Accepted wire handle .continueAsFile ⟨closed.disk, opened⟩

def acknowledged (trace : List (Handle × Call)) : List EffectEvent :=
  trace.filterMap fun taken =>
    match taken.2 with
    | .append _ event => some event
    | .continueAsFile => none

def Accounts (journal : FileJournal) (key : EffectKey) : Prop :=
  key ∈ journal.recover.attempts.map Attempt.key ∨
    ∃ record ∈ journal.folded, record.alreadyWalked key = true

def ChainReopens (wire : Wire) (disk : Disk) (path : JournalPath) (events : List EffectEvent) :
    Prop :=
  ∃ journal after, openActive wire disk.releaseAll path = (.ok journal, after) ∧
    ∀ event ∈ events, Accounts journal event.key

variable {wire : Wire} {path : JournalPath} {frames : List Frame} {state : ScanState}

theorem mem_keys_recover (journal : FileJournal) (key : EffectKey) :
    key ∈ journal.recover.attempts.map Attempt.key ↔
      key ∈ (seedsOf journal.checkpoint).map Attempt.key ∨
        ∃ event ∈ journal.events, event.key = key :=
  mem_keys_recoverContinued _ _ _

theorem accounts_of_mem {journal : FileJournal} {event : EffectEvent}
    (h : event ∈ journal.events) : Accounts journal event.key :=
  Or.inl ((mem_keys_recover journal _).mpr (Or.inr ⟨event, h, rfl⟩))

theorem openActive_ok {disk after : Disk} {journal : FileJournal}
    (h : openImpl wire disk path (.continuing .declared) = (.ok journal, after)) :
    openActive wire disk path = (.ok journal, after) := by
  unfold openActive maxGenerationWalk openWalk
  rw [h]

theorem openActive_error {disk after : Disk} {cause : JournalError}
    (h : openImpl wire disk path (.continuing .declared) = (.error cause, after))
    (hcause : ∀ next, cause ≠ .superseded next) :
    openActive wire disk path = (.error cause, after) := by
  unfold openActive maxGenerationWalk openWalk
  rw [h]
  cases cause <;> first | rfl | exact absurd rfl (hcause _)

structure Spoiled (wire : Wire) (path : JournalPath) (frames : List Frame) (state : ScanState)
    (disk : Disk) : Prop where
  scanned : scanFrames wire maxJournalEvents (.start wire) frames = .ok state
  closed : state.ownSeal ≠ none
  behind : ∃ frame rest, (∀ other ∈ frames ++ frame :: rest, other.Sized) ∧
    disk.file path = framesBytes (frames ++ frame :: rest)
  locked : disk.locked path = true

theorem Spoiled.refuses {disk : Disk} (h : Spoiled wire path frames state disk) (free : Disk)
    (kind : OpenKind) (journal : FileJournal) (after : Disk)
    (hfile : free.file path = disk.file path) :
    openImpl wire free path kind ≠ (.ok journal, after) := by
  intro hopen
  obtain ⟨frame, rest, hsized, hbytes⟩ := h.behind
  obtain ⟨last, hlast⟩ := openable_of_openImpl hopen hsized (hfile.trans hbytes)
  have hscanned := hlast.scanned
  rw [scanFrames_append_of_ok _ h.scanned] at hscanned
  exact absurd hscanned (scanFrames_after_seal h.closed frame rest last)

theorem not_chainReopens_of_spoiled {disk : Disk} {events : List EffectEvent}
    (h : Spoiled wire path frames state disk) : ¬ ChainReopens wire disk path events := by
  rintro ⟨journal, after, hactive, -⟩
  obtain ⟨frame, rest, hsized, hfile⟩ := h.behind
  obtain ⟨refusal, hrefusal⟩ : ∃ refusal,
      scanFrames wire maxJournalEvents state (frame :: rest) = .error refusal := by
    rcases @scanFrames_after_seal_error wire maxJournalEvents state h.closed frame rest with
      hframes | ⟨kind, hframes⟩
    · exact ⟨_, hframes⟩
    · exact ⟨_, hframes⟩
  have hscan : scan wire (disk.releaseAll.file path) maxJournalEvents = .error refusal := by
    change scan wire (disk.file path) maxJournalEvents = _
    rw [hfile, scan_framesBytes hsized, scanFrames_append_of_ok _ h.scanned, hrefusal]
  cases hopen : openImpl wire disk.releaseAll path (.continuing .declared) with
  | mk answer after' =>
    cases answer with
    | ok opened =>
      exact absurd hopen (h.refuses _ _ _ _ rfl)
    | error cause =>
      have hcause : ∀ next, cause ≠ .superseded next := by
        rintro next rfl
        obtain ⟨-, scanned, hread, -⟩ := openImpl_superseded hopen
        rw [hscan] at hread
        cases hread
      rw [openActive_error hopen hcause] at hactive
      cases hactive

theorem file_of_sealedDisk_ne {handle : Handle} {payload : Bytes}
    (h : successorPath handle.journal.path ≠ path) :
    (handle.sealedDisk wire payload).file path =
      if path = handle.journal.path then
        handle.file ++ (wire.frameAt handle.journal.position payload).bytes
      else handle.disk.file path := by
  unfold Handle.sealedDisk
  rw [Disk.file_write_of_ne _ _ _ (Ne.symm h)]
  by_cases hpath : path = handle.journal.path
  · rw [if_pos hpath, hpath, Disk.file_write_self]
  · rw [if_neg hpath, Disk.file_write_of_ne _ _ _ hpath]

theorem ne_of_locked {disk after : Disk} {other : JournalPath} {kind : OpenKind}
    {journal : FileJournal} (hlocked : disk.locked path = true)
    (h : openImpl wire disk other kind = (.ok journal, after)) : other ≠ path := by
  rintro rfl
  obtain ⟨frames, state, left, repaired, hopenable, -⟩ := openImpl_ok h
  rw [hopenable.unlocked] at hlocked
  cases hlocked

theorem locked_lock {disk : Disk} {other : JournalPath} (h : disk.locked path = true) :
    (disk.lock other).locked path = true := by
  unfold Disk.lock
  simp only
  split
  · rfl
  · exact h

theorem Spoiled.extend {disk after : Disk} {frame : Frame}
    (h : Spoiled wire path frames state disk) (hsized : frame.Sized)
    (hfile : after.file path = disk.file path ++ frame.bytes)
    (hlocked : after.locked path = true) : Spoiled wire path frames state after := by
  obtain ⟨first, rest, hall, hbytes⟩ := h.behind
  refine ⟨h.scanned, h.closed, ⟨first, rest ++ [frame], ?_, ?_⟩, hlocked⟩
  · intro other hother
    rw [← List.cons_append, ← List.append_assoc] at hother
    rcases List.mem_append.mp hother with hother | hother
    · exact hall other hother
    · rw [List.mem_singleton.mp hother]
      exact hsized
  · rw [hfile, hbytes, ← List.cons_append, ← List.append_assoc, framesBytes_append _ [frame],
      framesBytes_cons, framesBytes_nil, List.append_nil]

theorem Spoiled.of_file {disk after : Disk} (h : Spoiled wire path frames state disk)
    (hfile : after.file path = disk.file path) (hlocked : after.locked path = true) :
    Spoiled wire path frames state after := by
  obtain ⟨first, rest, hall, hbytes⟩ := h.behind
  exact ⟨h.scanned, h.closed, ⟨first, rest, hall, hfile.trans hbytes⟩, hlocked⟩

theorem spoiled_of_closed {disk : Disk} {frame : Frame}
    (hscanned : scanFrames wire maxJournalEvents (.start wire) frames = .ok state)
    (hclosed : state.ownSeal ≠ none) (hall : ∀ other ∈ frames, other.Sized)
    (hsized : frame.Sized) (hfile : disk.file path = framesBytes frames ++ frame.bytes)
    (hlocked : disk.locked path = true) : Spoiled wire path frames state disk := by
  refine ⟨hscanned, hclosed, ⟨frame, [], ?_, ?_⟩, hlocked⟩
  · intro other hother
    rcases List.mem_append.mp hother with hother | hother
    · exact hall other hother
    · rw [List.mem_singleton.mp hother]
      exact hsized
  · rw [hfile, framesBytes_append, framesBytes_cons, framesBytes_nil, List.append_nil]

/-- Where a run stands: still in front of its first write, or over a spoiled file. -/
structure Standing (wire : Wire) (path : JournalPath) (frames : List Frame) (state : ScanState)
    (start here : Handle) : Prop where
  continuing : here.journal.continuing = start.journal.continuing
  place : here = start ∨ Spoiled wire path frames state here.disk

variable {start here next : Handle} {kind : OpenKind} {repaired : Bool} {call : Call}

theorem spoiled_appended (hstart : Mirrors wire start kind repaired frames state)
    (hpath : start.journal.path = path) (hlocked : start.disk.locked path = true)
    (hclosed : state.ownSeal ≠ none) (h : Standing wire path frames state start here)
    {event : EffectEvent} {payload : Bytes} (hadmits : Admits wire here event payload) :
    Spoiled wire path frames state (here.appended wire event payload).disk := by
  have hstill : (here.appended wire event payload).disk.locked path = true := by
    rcases h.place with rfl | hspoiled
    · exact hlocked
    · exact hspoiled.locked
  rcases h.place with rfl | hspoiled
  · apply spoiled_of_closed hstart.scanned hclosed hstart.sized hadmits.sized _ hstill
    have hfile := Disk.file_of_files hstart.file
    rw [← hfile, ← hpath]
    exact file_appended event payload
  · by_cases hsame : here.journal.path = path
    · apply hspoiled.extend hadmits.sized _ hstill
      rw [← hsame]
      exact file_appended event payload
    · exact hspoiled.of_file (Disk.file_write_of_ne _ _ _ (Ne.symm hsame)) hstill

/-- An accepted continuation spoils the file it seals a second time, or leaves the spoiled
one it is not about. -/
theorem spoiled_continued (lawful : wire.Lawful)
    (hstart : Mirrors wire start kind repaired frames state)
    (hpath : start.journal.path = path) (hlocked : start.disk.locked path = true)
    (hclosed : state.ownSeal ≠ none) (h : Standing wire path frames state start here)
    {opened : FileJournal} {closed : Handle}
    (hcontinue : here.continueAsFile wire = (.ok (some opened), closed)) :
    Spoiled wire path frames state closed.disk := by
  obtain ⟨checkpoint, payload, hseals, -, -, hopen⟩ := continueAsFile_some hcontinue
  obtain ⟨-, -, hdisk⟩ := opened_of_continue lawful hseals hopen
  have hheld : (here.sealedDisk wire payload).locked path = true := by
    rcases h.place with rfl | hspoiled
    · exact hlocked
    · exact hspoiled.locked
  have hother := ne_of_locked hheld hopen
  have hafter : closed.disk.file path = if path = here.journal.path then
      here.file ++ (wire.frameAt here.journal.position payload).bytes
      else here.disk.file path := by
    rw [hdisk, Disk.file_lock]
    exact file_of_sealedDisk_ne hother
  have hstill : closed.disk.locked path = true := by
    rw [hdisk]
    exact locked_lock hheld
  rcases h.place with rfl | hspoiled
  · apply spoiled_of_closed hstart.scanned hclosed hstart.sized hseals.sized _ hstill
    rw [hafter, if_pos hpath.symm, Handle.file, Disk.file_of_files hstart.file]
  · by_cases hsame : path = here.journal.path
    · apply hspoiled.extend hseals.sized _ hstill
      rw [hafter, if_pos hsame, Handle.file, ← hsame]
    · apply hspoiled.of_file _ hstill
      rw [hafter, if_neg hsame]

theorem continuing_accepted (h : Accepted wire here call next) :
    next.journal.continuing = here.journal.continuing := by
  cases h with
  | append haccepted =>
    obtain ⟨-, payload, -, -, rfl⟩ := compareAndAppend_ok.mp haccepted
    rfl
  | idle hidle =>
    obtain ⟨-, rfl⟩ := continueAsFile_none hidle
    rfl
  | continued hcontinue =>
    obtain ⟨checkpoint, payload, -, hcontinuing, -, hopen⟩ := continueAsFile_some hcontinue
    obtain ⟨frames, state, left, repaired, -, -, rfl, -⟩ := openImpl_ok hopen
    rw [hcontinuing]
    rfl

/-- An accepted call either does nothing, on a handle without a lifecycle, or spoils the
file. -/
theorem accepted_cases (lawful : wire.Lawful)
    (hstart : Mirrors wire start kind repaired frames state)
    (hpath : start.journal.path = path) (hlocked : start.disk.locked path = true)
    (hclosed : state.ownSeal ≠ none) (h : Standing wire path frames state start here)
    (haccepted : Accepted wire here call next) :
    (next = here ∧ call = .continueAsFile ∧ start.journal.continuing = false) ∨
      Spoiled wire path frames state next.disk := by
  cases haccepted with
  | append happend =>
    obtain ⟨-, payload, hadmits, -, rfl⟩ := compareAndAppend_ok.mp happend
    exact Or.inr (spoiled_appended hstart hpath hlocked hclosed h hadmits)
  | idle hidle =>
    obtain ⟨hcontinuing, rfl⟩ := continueAsFile_none hidle
    rw [h.continuing] at hcontinuing
    exact Or.inl ⟨rfl, rfl, hcontinuing⟩
  | continued hcontinue =>
    have hspoiled := spoiled_continued lawful hstart hpath hlocked hclosed h hcontinue
    exact Or.inr hspoiled

/-- A predecessor that ends in its own seal and is opened as the authoritative journal keeps
its chain openable exactly through runs that never write: no append, and no continuation but
those a handle opened without a lifecycle answers with nothing. -/
theorem chainReopens_iff {disk after : Disk} {journal : FileJournal}
    {trace : List (Handle × Call)} {final : Handle} (lawful : wire.Lawful)
    (hopen : openImpl wire disk path kind = (.ok journal, after)) (hsealed : journal.ownSeal ≠ none)
    (run : Run (Accepted wire) ⟨after, journal⟩ trace final) :
    ChainReopens wire final.disk path (journal.events ++ acknowledged trace) ↔
      (∀ taken ∈ trace, ∀ tail event, taken.2 ≠ .append tail event) ∧
        (trace = [] ∨ journal.continuing = false) := by
  obtain ⟨frames, state, left, repaired, hopenable, hfile, hjournal, hafter, hmirrors⟩ :=
    mirrors_of_open hopen
  have hpath : journal.path = path := by
    rw [hjournal]
    rfl
  have hclosed : state.ownSeal ≠ none := by
    rw [hjournal] at hsealed
    exact hsealed
  have hlocked : after.locked path = true := by
    rw [hafter]
    exact Disk.locked_lock_self _ _
  have hstart : Standing wire path frames state ⟨after, journal⟩ ⟨after, journal⟩ :=
    ⟨rfl, Or.inl rfl⟩
  have hcases := fun here call next =>
    @accepted_cases wire path frames state ⟨after, journal⟩ here next kind repaired call lawful
      hmirrors hpath hlocked hclosed
  have hstep : ∀ here call next, Standing wire path frames state ⟨after, journal⟩ here →
      Accepted wire here call next →
      Standing wire path frames state ⟨after, journal⟩ next := by
    intro here call next hhere haccepted
    refine ⟨(continuing_accepted haccepted).trans hhere.continuing, ?_⟩
    rcases hcases here call next hhere haccepted with ⟨rfl, -, -⟩ | hspoiled
    · exact hhere.place
    · exact Or.inr hspoiled
  constructor
  · intro hreopens
    by_contra hwrites
    apply @not_chainReopens_of_spoiled wire path frames state _ _ _ hreopens
    refine @Run.persists _ _ _ _ _ _ (Standing wire path frames state ⟨after, journal⟩)
      (fun here => Spoiled wire path frames state here.disk)
      (fun _ call => call ≠ .continueAsFile ∨ journal.continuing = true) run hstart hstep ?_ ?_ ?_
    · intro here call next hhere hwrite haccepted
      rcases hcases here call next hhere haccepted with ⟨-, hcall, hidle⟩ | hspoiled
      · rcases hwrite with hwrite | hwrite
        · exact absurd hcall hwrite
        · rw [hwrite] at hidle
          cases hidle
      · exact hspoiled
    · intro here call next hhere hspoiled haccepted
      rcases hcases here call next hhere haccepted with ⟨rfl, -, -⟩ | hnext
      · exact hspoiled
      · exact hnext
    · by_contra hnone
      apply hwrites
      have hidle : ∀ taken ∈ trace, taken.2 = .continueAsFile ∧ journal.continuing = false := by
        intro taken htaken
        by_contra hwrite
        apply hnone
        refine ⟨taken, htaken, ?_⟩
        by_cases hcall : taken.2 = .continueAsFile
        · right
          by_contra hcontinuing
          exact hwrite ⟨hcall, by simpa using hcontinuing⟩
        · exact Or.inl hcall
      refine ⟨?_, ?_⟩
      · intro taken htaken tail event happend
        rw [(hidle taken htaken).1] at happend
        cases happend
      · cases trace with
        | nil => exact Or.inl rfl
        | cons taken rest => exact Or.inr (hidle taken List.mem_cons_self).2
  · rintro ⟨hnoAppend, hquiet⟩
    have hsame : final = ⟨after, journal⟩ := by
      refine @Run.invariant _ _ _ _ _ _ (fun here => here = ⟨after, journal⟩)
        (fun _ call => (∀ tail event, call ≠ .append tail event) ∧ journal.continuing = false)
        run rfl ?_ ?_
      · rintro here call next rfl ⟨hcall, hidle⟩ haccepted
        cases haccepted with
        | append happend => exact absurd rfl (hcall _ _)
        | idle hnone => exact (continueAsFile_none hnone).2
        | continued hcontinue =>
          obtain ⟨checkpoint, payload, -, hcontinuing, -⟩ := continueAsFile_some hcontinue
          rw [hidle] at hcontinuing
          cases hcontinuing
      · intro taken htaken
        refine ⟨hnoAppend taken htaken, ?_⟩
        rcases hquiet with rfl | hidle
        · cases htaken
        · exact hidle
    have hnothing : acknowledged trace = [] := by
      apply List.filterMap_eq_nil_iff.mpr
      intro taken htaken
      have hcall := hnoAppend taken htaken
      split
      · rename_i tail event happend
        exact absurd happend (hcall tail event)
      · rfl
    have hauthority : superseding wire after journal.path state.ownSeal = none := by
      rw [hafter, hpath]
      exact superseding_of_open hopenable hfile
    obtain ⟨reopened, hreopen⟩ : ∃ reopened, openImpl wire after.releaseAll journal.path
        (.continuing .declared) =
          (.ok (.ofState wire journal.path (.continuing .declared) state false), reopened) :=
      ⟨_, hmirrors.reopen_on hauthority after.files_releaseAll (after.locked_releaseAll _) _⟩
    rw [hpath] at hreopen
    rw [hsame, hnothing, List.append_nil]
    refine ⟨_, _, openActive_ok hreopen, ?_⟩
    intro event hevent
    apply accounts_of_mem
    rw [hjournal] at hevent
    exact hevent

namespace PlainWire

def closedFrames : List Frame := [firstEvent, sealAt ⟨1, firstEvent.head⟩]

def closedState : ScanState :=
  ((ScanState.start plain).afterEvent firstEvent (plain.after plain.genesis firstEvent.payload)
    (.intentAdmitted (subject 1 1))).afterSeal (sealAt ⟨1, firstEvent.head⟩)
      (plain.after ⟨1, firstEvent.head⟩ (sealAt ⟨1, firstEvent.head⟩).payload)
      ⟨2, ⟨1, firstEvent.head⟩, [], []⟩

/-- The predecessor as a crash in front of its successor leaves it. -/
theorem openable_closed :
    Openable plain (diskOf base (framesBytes closedFrames)) base closedFrames closedState := by
  refine ⟨by decide, rfl, ?_, ?_, ?_, ?_⟩
  all_goals decide +kernel

def resumed : Handle :=
  ⟨((diskOf base (framesBytes closedFrames)).write base (framesBytes closedFrames)).lock base,
    .ofState plain base (.continuing .declared) closedState false⟩

theorem open_closed :
    openImpl plain (diskOf base (framesBytes closedFrames)) base (.continuing .declared) =
      (.ok resumed.journal, resumed.disk) :=
  openImpl_framesBytes openable_closed _ rfl

theorem resumed_reopens_untouched :
    ChainReopens plain resumed.disk base (resumed.journal.events ++ acknowledged []) :=
  (chainReopens_iff lawful_plain open_closed (by decide) .refl).mpr
    ⟨fun taken htaken => absurd htaken (List.not_mem_nil), Or.inl rfl⟩

/-- One accepted append behind the seal, and the chain never opens again. -/
theorem resumed_append_bricks :
    ∃ journal after trace final,
      openImpl plain (diskOf base (framesBytes closedFrames)) base (.continuing .declared) =
          (.ok journal, after) ∧
        journal.ownSeal ≠ none ∧ Run (Accepted plain) ⟨after, journal⟩ trace final ∧
        ¬ ChainReopens plain final.disk base (journal.events ++ acknowledged trace) := by
  have hadmits : Admits plain resumed (.dispatchPrepared (subject 1 1))
      (eventToBytes (.dispatchPrepared (subject 1 1))) := by
    refine ⟨⟨?_, ?_, rfl, ?_, ?_, ?_⟩, ?_, ?_⟩
    all_goals decide +kernel
  have hrun : Run (Accepted plain) resumed _ _ :=
    .snoc .refl (.append (compareAndAppend_ok.mpr ⟨rfl, _, hadmits, rfl, rfl⟩))
  refine ⟨_, _, _, _, open_closed, by decide, hrun, ?_⟩
  apply @not_chainReopens_of_spoiled plain base closedFrames closedState
  apply spoiled_of_closed openable_closed.scanned (by decide) openable_closed.sized hadmits.sized
  · exact file_appended _ _
  · decide

end PlainWire

end LogicalWorks.Journal
