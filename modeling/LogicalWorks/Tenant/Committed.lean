import LogicalWorks.Tenant.Store

/-! What stays of a tenant store over whole runs of its handles: the file is the records that
were written, and each handle's index is the fold of the first of them. -/
namespace LogicalWorks.Tenant

open Journal LogicalWorks.Task

variable {wire : Wire}

/-- Records that operations brought about one after the other, each on the fold of those
before it. -/
inductive Admitted (wire : Wire) : List Stored → Prop where
  | nil : Admitted wire []
  | snoc {before : List Stored} {operation : Operation} {stored : Stored} {answer : Answer}
      (hbefore : Admitted wire before)
      (happly : operation.apply (indexFor wire before) = .ok (some stored, answer)) :
      Admitted wire (before ++ [stored])

def Whole (wire : Wire) (bytes : Bytes) : Prop :=
  ∃ records, (∀ stored ∈ records, Writable wire stored) ∧ bytes = fileOf wire records

/-- The handle and the operation of a step that may write to the file of an open store. -/
def Action.mutates : Action → Option (Nat × Operation)
  | .transact id operation => some (id, operation)
  | .crashTransact id operation moved => if moved = 0 then none else some (id, operation)
  | .opens _ | .observe _ | .crashOpen _ _ | .loseSnapshot => none

/-- A step that gets to its write finds a file without a torn tail, and a handle that stands
at the committed length where the file holds nothing behind it; no crash tears the header of a
new file. -/
def Appends (wire : Wire) (store : Store) (action : Action) : Prop :=
  (∀ id operation held write answer file index, action.mutates = some (id, operation) →
    store.handles.get id = some held →
    prepare wire ⟨store.bytes, held.position⟩ held.index operation =
      (.ok (some write, answer), file, index) →
    Whole wire store.bytes ∧
      (store.bytes.length = held.index.committed → held.position = held.index.committed)) ∧
  ∀ id moved, action = .crashOpen id moved → store.bytes = [] → moved = 0 ∨ headerLen ≤ moved

structure Kept (wire : Wire) (store : Store) : Prop where
  writable : ∀ stored ∈ store.written, Writable wire stored
  admitted : Admitted wire store.written
  file : (store.bytes = [] ∧ store.written = [] ∧ ∀ id, store.handles.get id = none) ∨
    ∃ cut, Format.Cut maxFrameBytes cut ∧ store.bytes = fileOf wire store.written ++ cut
  handles : ∀ id held, store.handles.get id = some held →
    ∃ first, first <+: store.written ∧ held.index = indexFor wire first
  snapshot : ∀ text, store.snapshot = some text →
    ∃ first, first <+: store.written ∧ text = Snapshot.write wire (indexFor wire first)

theorem header_ne_nil : header ≠ [] := by decide +kernel

theorem fileOf_ne_nil (records : List Stored) : fileOf wire records ≠ [] := by
  intro h
  exact header_ne_nil (List.append_eq_nil_iff.mp h).1

theorem fileOf_append_ne_nil (records : List Stored) (cut : Bytes) :
    fileOf wire records ++ cut ≠ [] :=
  List.append_ne_nil_of_left_ne_nil (fileOf_ne_nil records) cut

theorem cut_nil : Format.Cut maxFrameBytes [] := Format.cut_nil (by decide)

theorem prepare_some {file after : PositionedFile} {index folded : Index} {operation : Operation}
    {write : Write} {answer : Answer}
    (h : prepare wire file index operation = (.ok (some write, answer), after, folded)) :
    refresh wire file index = (.ok (), after, folded) ∧
      operation.apply folded = .ok (some write.stored, answer) ∧
      Writable wire write.stored ∧
      write.framed = (frameBehind wire folded.tail write.stored).bytes ∧
      folded.commit write = absorb wire folded write.stored := by
  unfold prepare at h
  cases hrefresh : refresh wire file index with
  | mk outcome rest =>
    obtain ⟨refreshed, held⟩ := rest
    rw [hrefresh] at h
    cases outcome with
    | error refusal => cases h
    | ok _ =>
      simp only [] at h
      cases happly : operation.apply held with
      | error refusal =>
        rw [happly] at h
        cases h
      | ok decided =>
        obtain ⟨record, decision⟩ := decided
        rw [happly] at h
        cases record with
        | none => cases h
        | some stored =>
          simp only [] at h
          cases hframe : frameOf wire stored held.tail with
          | error refusal =>
            rw [hframe] at h
            cases h
          | ok pair =>
            obtain ⟨framed, head⟩ := pair
            rw [hframe] at h
            cases h
            obtain ⟨hwritable, hframed, hhead⟩ :=
              frameOf_ok (apply_some happly).known hframe
            refine ⟨rfl, happly, hwritable, hframed, ?_⟩
            unfold Index.commit
            rw [fold_counted, hframed, hhead, Frame.length_bytes]
            rfl

theorem prepare_after {file after : PositionedFile} {index folded : Index} {operation : Operation}
    {refreshed : PositionedFile} {held : Index}
    {outcome : Except TenantStoreError (Option Write × Answer)}
    (hrefresh : refresh wire file index = (.ok (), refreshed, held))
    (h : prepare wire file index operation = (outcome, after, folded)) :
    after = refreshed ∧ folded = held := by
  unfold prepare at h
  rw [hrefresh] at h
  simp only [] at h
  split at h
  · cases h
    exact ⟨rfl, rfl⟩
  · cases h
    exact ⟨rfl, rfl⟩
  · split at h
    · cases h
      exact ⟨rfl, rfl⟩
    · cases h
      exact ⟨rfl, rfl⟩

theorem Kept.refresh (lawful : wire.Lawful) {store : Store} (kept : Kept wire store) {id : Nat}
    {held : Held} (hheld : store.handles.get id = some held) :
    Tenant.refresh wire ⟨store.bytes, held.position⟩ held.index = (.ok (),
      ⟨fileOf wire store.written,
        if store.bytes.length = held.index.committed then held.position else store.bytes.length⟩,
      indexFor wire store.written) := by
  obtain ⟨first, ⟨rest, hrest⟩, hindex⟩ := kept.handles id held hheld
  rcases kept.file with ⟨-, -, hnone⟩ | ⟨cut, hcut, hbytes⟩
  · rw [hnone id] at hheld
    cases hheld
  · have hwritable := kept.writable
    rw [← hrest] at hwritable hbytes ⊢
    rw [hindex]
    exact refresh_file lawful hwritable hcut hbytes

theorem Kept.settle {store : Store} (kept : Kept wire store) {id position frames : Nat}
    {snapshot : Option Bytes}
    (hsnapshot : ∀ text, snapshot = some text →
      ∃ first, first <+: store.written ∧ text = Snapshot.write wire (indexFor wire first)) :
    Kept wire
      { store with
        bytes := fileOf wire store.written
        snapshot
        handles := store.handles.insert id ⟨position, indexFor wire store.written, frames⟩ } := by
  refine ⟨kept.writable, kept.admitted, .inr ⟨[], cut_nil, (List.append_nil _).symm⟩, ?_,
    hsnapshot⟩
  intro asked held hheld
  rw [Table.get_insert] at hheld
  split at hheld
  · cases hheld
    exact ⟨_, List.prefix_refl _, rfl⟩
  · exact kept.handles asked held hheld

theorem Kept.extend {store : Store} (kept : Kept wire store) {stored : Stored}
    {operation : Operation} {answer : Answer}
    (happly : operation.apply (indexFor wire store.written) = .ok (some stored, answer))
    (hwritable : Writable wire stored) {handles : Table Nat Held}
    (hhandles : ∀ id held, handles.get id = some held → store.handles.get id = some held) :
    Kept wire
      { store with
        bytes := fileOf wire (store.written ++ [stored])
        handles
        written := store.written ++ [stored] } := by
  have hgrow : ∀ {first : List Stored}, first <+: store.written →
      first <+: store.written ++ [stored] := fun h => h.trans (List.prefix_append _ _)
  refine ⟨?_, kept.admitted.snoc happly, .inr ⟨[], cut_nil, (List.append_nil _).symm⟩, ?_, ?_⟩
  · intro other hother
    rcases List.mem_append.mp hother with hbefore | hlast
    · exact kept.writable other hbefore
    · rw [List.mem_singleton.mp hlast]
      exact hwritable
  · intro id held hheld
    obtain ⟨first, hfirst, hindex⟩ := kept.handles id held (hhandles id held hheld)
    exact ⟨first, hgrow hfirst, hindex⟩
  · intro text htext
    obtain ⟨first, hfirst, hwrite⟩ := kept.snapshot text htext
    exact ⟨first, hgrow hfirst, hwrite⟩

theorem Kept.tear {store : Store} (kept : Kept wire store) {cut : Bytes} {id : Nat}
    (hcut : Format.Cut maxFrameBytes cut) :
    Kept wire
      { store with
        bytes := fileOf wire store.written ++ cut
        handles := store.handles.remove id } := by
  refine ⟨kept.writable, kept.admitted, .inr ⟨cut, hcut, rfl⟩, ?_, kept.snapshot⟩
  intro asked held hheld
  rw [Table.get_remove] at hheld
  split at hheld
  · cases hheld
  · exact kept.handles asked held hheld

theorem maybeSnapshot_eq (records : List Stored) (snapshotFrames : Nat) (snapshot : Option Bytes)
    {text : Bytes}
    (h : (maybeSnapshot wire (indexFor wire records) snapshotFrames snapshot).1 = some text) :
    snapshot = some text ∨ text = Snapshot.write wire (indexFor wire records) := by
  unfold maybeSnapshot at h
  split at h
  · exact .inl h
  · cases h
    exact .inr rfl

theorem Kept.maybeSnapshot {store : Store} (kept : Kept wire store) (snapshotFrames : Nat) :
    ∀ text, (Tenant.maybeSnapshot wire (indexFor wire store.written) snapshotFrames
        store.snapshot).1 = some text →
      ∃ first, first <+: store.written ∧ text = Snapshot.write wire (indexFor wire first) := by
  intro text htext
  rcases maybeSnapshot_eq _ _ _ htext with hbefore | hnow
  · exact kept.snapshot text hbefore
  · exact ⟨_, List.prefix_refl _, hnow⟩

theorem Kept.openHandle (lawful : wire.Lawful) {store : Store} (kept : Kept wire store) :
    ∃ position frames loaded, Tenant.openHandle wire store.bytes store.snapshot =
      (.ok ⟨position, indexFor wire store.written, frames⟩, fileOf wire store.written,
        (Tenant.maybeSnapshot wire (indexFor wire store.written) loaded store.snapshot).1) := by
  have hfile : ∃ cut, Format.Cut maxFrameBytes cut ∧
      (openHeaderFile store.bytes).bytes = fileOf wire store.written ++ cut := by
    unfold openHeaderFile
    rcases kept.file with ⟨hempty, hnone, -⟩ | ⟨cut, hcut, hbytes⟩
    · rw [hempty, hnone]
      refine ⟨[], cut_nil, ?_⟩
      rw [if_pos List.length_nil, PositionedFile.writeAll_at_end rfl, List.append_nil]
      exact (List.append_nil header).symm
    · rw [if_neg (by
        rw [hbytes, List.length_eq_zero_iff]
        exact fileOf_append_ne_nil _ _)]
      exact ⟨cut, hcut, hbytes⟩
  obtain ⟨cut, hcut, hbytes⟩ := hfile
  have hload : ∃ file, loadIndex wire (openHeaderFile store.bytes) store.snapshot =
      (.ok (), file, indexFor wire store.written) ∧
      ∃ cut, file.bytes = fileOf wire store.written ++ cut := by
    cases hsnapshot : store.snapshot with
    | none =>
      exact ⟨_, fullReplay_file lawful kept.writable hcut hbytes, cut, hbytes⟩
    | some text =>
      obtain ⟨first, ⟨rest, hrest⟩, rfl⟩ := kept.snapshot text hsnapshot
      have hwritable := kept.writable
      rw [← hrest] at hwritable hbytes ⊢
      rw [loadIndex_write lawful, refresh_file lawful hwritable hcut hbytes]
      exact ⟨_, rfl, [], (List.append_nil _).symm⟩
  obtain ⟨file, hload, left, hleft⟩ := hload
  unfold Tenant.openHandle
  rw [hload]
  simp only [trimToCommitted_file hleft]
  exact ⟨_, _, _, rfl⟩

/-- Where a step that gets to its write stands, and what its frame makes of the file and of the
index. -/
theorem Kept.write (lawful : wire.Lawful) {store : Store} (kept : Kept wire store)
    {action : Action} (appends : Appends wire store action) {id : Nat} {operation : Operation}
    (hmutates : action.mutates = some (id, operation)) {held : Held}
    (hheld : store.handles.get id = some held) {write : Write} {answer : Answer}
    {file : PositionedFile} {index : Index}
    (hprepare : prepare wire ⟨store.bytes, held.position⟩ held.index operation =
      (.ok (some write, answer), file, index)) :
    file = ⟨fileOf wire store.written, (fileOf wire store.written).length⟩ ∧
      index = indexFor wire store.written ∧
      operation.apply index = .ok (some write.stored, answer) ∧ Writable wire write.stored ∧
      write.framed = (frameBehind wire index.tail write.stored).bytes ∧
      fileOf wire store.written ++ write.framed = fileOf wire (store.written ++ [write.stored]) ∧
      index.commit write = indexFor wire (store.written ++ [write.stored]) := by
  obtain ⟨hrefresh, happly, hwritable, hframed, hcommit⟩ := prepare_some hprepare
  rw [kept.refresh lawful hheld] at hrefresh
  obtain ⟨-, hstand⟩ := Prod.mk.inj hrefresh
  obtain ⟨rfl, rfl⟩ := Prod.mk.inj hstand
  obtain ⟨⟨records, hrecords, hwhole⟩, hposition⟩ :=
    appends.1 _ _ _ _ _ _ _ hmutates hheld hprepare
  have hbytes : store.bytes = fileOf wire store.written := by
    rcases kept.file with ⟨-, -, hnone⟩ | ⟨cut, hcut, hbytes⟩
    · rw [hnone id] at hheld
      cases hheld
    · rw [hwhole] at hbytes
      have hnil := cut_eq_nil_of_whole lawful hrecords kept.writable hcut hbytes
      rw [hnil, List.append_nil] at hbytes
      rw [hwhole, hbytes]
  refine ⟨?_, rfl, happly, hwritable, hframed, ?_, ?_⟩
  · split
    · rename_i hsame
      rw [hposition hsame, ← hsame, hbytes]
    · rw [hbytes]
  · rw [fileOf_append, layout, layout, List.append_nil, hframed]
  · rw [hcommit, indexFor_append]
    rfl

theorem Kept.opens (lawful : wire.Lawful) {store : Store} (kept : Kept wire store) (id : Nat) :
    Kept wire (store.opens wire id) ∧ (store.opens wire id).bytes ≠ [] := by
  obtain ⟨position, frames, loaded, hopen⟩ := kept.openHandle lawful
  unfold Store.opens
  rw [hopen]
  exact ⟨kept.settle (kept.maybeSnapshot loaded), fileOf_ne_nil _⟩

theorem Kept.observe (lawful : wire.Lawful) {store : Store} (kept : Kept wire store) {id : Nat}
    {held : Held} (hheld : store.handles.get id = some held) :
    Kept wire (store.observe wire id held) ∧ (store.observe wire id held).bytes ≠ [] := by
  unfold Store.observe
  rw [kept.refresh lawful hheld]
  exact ⟨kept.settle kept.snapshot, fileOf_ne_nil _⟩

theorem Kept.prepared (lawful : wire.Lawful) {store : Store} (kept : Kept wire store) {id : Nat}
    {held : Held} (hheld : store.handles.get id = some held) {operation : Operation}
    {outcome : Except TenantStoreError (Option Write × Answer)} {file : PositionedFile}
    {index : Index}
    (hprepare : prepare wire ⟨store.bytes, held.position⟩ held.index operation =
      (outcome, file, index)) :
    file.bytes = fileOf wire store.written ∧ index = indexFor wire store.written := by
  obtain ⟨rfl, rfl⟩ := prepare_after (kept.refresh lawful hheld) hprepare
  exact ⟨rfl, rfl⟩

theorem Kept.transact (lawful : wire.Lawful) {store : Store} (kept : Kept wire store) {id : Nat}
    {operation : Operation} (appends : Appends wire store (.transact id operation)) {held : Held}
    (hheld : store.handles.get id = some held) :
    Kept wire (store.transact wire id held operation) ∧
      (store.transact wire id held operation).bytes ≠ [] := by
  unfold Store.transact
  cases hprepare : prepare wire ⟨store.bytes, held.position⟩ held.index operation with
  | mk outcome rest =>
    obtain ⟨file, index⟩ := rest
    rcases outcome with refusal | ⟨_ | write, answer⟩
    · obtain ⟨hbytes, rfl⟩ := kept.prepared lawful hheld hprepare
      simp only [hbytes]
      exact ⟨kept.settle kept.snapshot, fileOf_ne_nil _⟩
    · obtain ⟨hbytes, rfl⟩ := kept.prepared lawful hheld hprepare
      simp only [hbytes]
      exact ⟨kept.settle kept.snapshot, fileOf_ne_nil _⟩
    · obtain ⟨rfl, rfl, happly, hwritable, -, hgrow, hcommit⟩ :=
        kept.write lawful appends rfl hheld hprepare
      simp only [PositionedFile.writeAll_at_end, hgrow, hcommit]
      have kept' := kept.extend happly hwritable (fun _ _ h => h)
      exact ⟨kept'.settle (kept'.maybeSnapshot held.snapshotFrames), fileOf_ne_nil _⟩

/-- What a dead writer leaves behind the records: its whole frame, or a torn tail. -/
theorem Kept.crashTransact (lawful : wire.Lawful) {store : Store} (kept : Kept wire store)
    {id moved : Nat} {operation : Operation}
    (appends : Appends wire store (.crashTransact id operation moved)) {held : Held}
    (hheld : store.handles.get id = some held) :
    Kept wire (store.crashTransact wire id held operation moved) ∧
      (store.crashTransact wire id held operation moved).bytes ≠ [] := by
  have hnone : ∀ {bytes : Bytes}, bytes = fileOf wire store.written →
      Kept wire { store with bytes, handles := store.handles.remove id } ∧ bytes ≠ [] := by
    intro bytes hbytes
    rw [hbytes, ← List.append_nil (fileOf wire store.written)]
    exact ⟨kept.tear cut_nil, fileOf_append_ne_nil _ _⟩
  unfold Store.crashTransact
  cases hprepare : prepare wire ⟨store.bytes, held.position⟩ held.index operation with
  | mk outcome rest =>
    obtain ⟨file, index⟩ := rest
    rcases outcome with refusal | ⟨_ | write, answer⟩
    · exact hnone (kept.prepared lawful hheld hprepare).1
    · exact hnone (kept.prepared lawful hheld hprepare).1
    · simp only []
      by_cases hmoved : moved = 0
      · -- nothing was written
        obtain ⟨-, -, hwritable, hframed, -⟩ := prepare_some hprepare
        rw [hmoved, List.take_zero, if_neg (by
          rw [hframed, Frame.length_bytes, framedLen]
          unfold headBytes
          omega), List.append_nil]
        exact hnone (kept.prepared lawful hheld hprepare).1
      · obtain ⟨rfl, rfl, happly, hwritable, hframed, hgrow, -⟩ :=
          kept.write lawful appends (if_neg hmoved) hheld hprepare
        simp only [PositionedFile.writeAll_at_end]
        refine ⟨?_, fileOf_append_ne_nil _ _⟩
        split
        · rename_i hwhole
          rw [List.take_of_length_le hwhole, hgrow]
          refine kept.extend happly hwritable ?_
          intro asked other hother
          rw [Table.get_remove] at hother
          split at hother
          · cases hother
          · exact hother
        · rename_i hshort
          rw [List.append_nil]
          refine kept.tear ⟨frameBehind wire (indexFor wire store.written).tail write.stored,
            hwritable.fits _, ?_, ?_⟩
          · rw [← hframed]
            exact List.take_prefix _ _
          · rw [← hframed, List.length_take]
            omega

theorem Kept.crashOpen {store : Store} (kept : Kept wire store) {id moved : Nat}
    (appends : Appends wire store (.crashOpen id moved)) :
    Kept wire (store.act wire (.crashOpen id moved)) ∧
      (store.bytes ≠ [] → (store.act wire (.crashOpen id moved)).bytes ≠ []) := by
  simp only [Store.act]
  rcases kept.file with ⟨hempty, hwritten, hhandles⟩ | ⟨cut, hcut, hbytes⟩
  · have hremoved : ∀ asked, (store.handles.remove id).get asked = none := by
      intro asked
      rw [Table.get_remove, hhandles]
      exact ite_self none
    have hnoHeld : ∀ {P : Held → Prop} asked held,
        (store.handles.remove id).get asked = some held → P held := by
      intro P asked held hheld
      rw [hremoved] at hheld
      cases hheld
    rw [if_pos (List.length_eq_zero_iff.mpr hempty)]
    refine ⟨⟨kept.writable, kept.admitted, ?_, hnoHeld, kept.snapshot⟩,
      fun h => absurd hempty h⟩
    rcases appends.2 id moved rfl hempty with hnothing | hwhole
    · exact .inl ⟨by rw [hnothing, List.take_zero], hwritten, hremoved⟩
    · refine .inr ⟨[], cut_nil, ?_⟩
      rw [List.take_of_length_le (by rw [length_header]; exact hwhole)]
      simp only [hwritten, fileOf, layout, List.append_nil]
  · have hsome : store.bytes.length ≠ 0 := by
      rw [hbytes, Ne, List.length_eq_zero_iff]
      exact fileOf_append_ne_nil _ _
    simp only [if_neg hsome]
    refine ⟨?_, fun h => h⟩
    rw [hbytes]
    exact kept.tear hcut

/-- Every allowed step keeps the file a file of records, and never empties it. -/
theorem Kept.step (lawful : wire.Lawful) {store : Store} (kept : Kept wire store)
    {action : Action} (appends : Appends wire store action) :
    Kept wire (store.act wire action) ∧
      (store.bytes ≠ [] → (store.act wire action).bytes ≠ []) := by
  cases action with
  | opens id =>
    obtain ⟨hkept, hsome⟩ := kept.opens lawful id
    exact ⟨hkept, fun _ => hsome⟩
  | transact id operation =>
    simp only [Store.act]
    cases hheld : store.handles.get id with
    | none => exact ⟨kept, fun h => h⟩
    | some held =>
      obtain ⟨hkept, hsome⟩ := kept.transact lawful appends hheld
      exact ⟨hkept, fun _ => hsome⟩
  | observe id =>
    simp only [Store.act]
    cases hheld : store.handles.get id with
    | none => exact ⟨kept, fun h => h⟩
    | some held =>
      obtain ⟨hkept, hsome⟩ := kept.observe lawful hheld
      exact ⟨hkept, fun _ => hsome⟩
  | crashOpen id moved => exact kept.crashOpen appends
  | crashTransact id operation moved =>
    simp only [Store.act]
    cases hheld : store.handles.get id with
    | none => exact ⟨kept, fun h => h⟩
    | some held =>
      obtain ⟨hkept, hsome⟩ := kept.crashTransact lawful appends hheld
      exact ⟨hkept, fun _ => hsome⟩
  | loseSnapshot =>
    refine ⟨⟨kept.writable, kept.admitted, kept.file, kept.handles, ?_⟩, fun h => h⟩
    intro text htext
    cases htext

theorem Kept.empty : Kept wire .empty := by
  refine ⟨?_, .nil, .inl ⟨rfl, rfl, fun id => rfl⟩, ?_, ?_⟩
  · intro stored hstored
    cases hstored
  · intro id held hheld
    cases hheld
  · intro text htext
    cases htext

theorem written_act (store : Store) (action : Action) :
    store.written <+: (store.act wire action).written := by
  have hsame := List.prefix_refl store.written
  cases action with
  | opens id =>
    simp only [Store.act, Store.opens]
    split
    · exact hsame
    · exact hsame
  | transact id operation =>
    simp only [Store.act]
    split
    · exact hsame
    · unfold Store.transact
      split
      · exact List.prefix_append _ _
      · exact hsame
  | observe id =>
    simp only [Store.act]
    split
    · exact hsame
    · exact hsame
  | crashOpen id moved => exact hsame
  | crashTransact id operation moved =>
    simp only [Store.act]
    split
    · exact hsame
    · unfold Store.crashTransact
      split
      · exact List.prefix_append _ _
      · exact hsame
  | loseSnapshot => exact hsame

/-- A run of allowed steps keeps the file a file of records, and takes no record back. -/
theorem Kept.run (lawful : wire.Lawful) {start final : Store} {trace : List (Store × Action)}
    (kept : Kept wire start) (run : Run (Store.Step wire) start trace final)
    (hallowed : ∀ taken ∈ trace, Appends wire taken.1 taken.2) :
    Kept wire final ∧ start.written <+: final.written ∧
      (start.bytes ≠ [] → final.bytes ≠ []) := by
  refine @Run.invariant _ _ _ _ _ _
    (fun store => Kept wire store ∧ start.written <+: store.written ∧
      (start.bytes ≠ [] → store.bytes ≠ [])) (Appends wire) run
    ⟨kept, List.prefix_refl _, fun h => h⟩ ?_ hallowed
  rintro store action next ⟨hkept, hwritten, hsome⟩ happends rfl
  obtain ⟨hnext, hstill⟩ := hkept.step lawful happends
  exact ⟨hnext, hwritten.trans (written_act store action), fun h => hstill (hsome h)⟩

theorem Kept.committed_prefix {state final : Store} (kept : Kept wire state)
    (hfinal : Kept wire final) (hwritten : state.written <+: final.written)
    (hsome : state.bytes ≠ [] → final.bytes ≠ []) {id : Nat} {held : Held}
    (hheld : state.handles.get id = some held) :
    held.index.committed ≤ state.bytes.length ∧
      state.bytes.take held.index.committed <+: final.bytes := by
  obtain ⟨first, ⟨rest, hrest⟩, hindex⟩ := kept.handles id held hheld
  have hlength : held.index.committed = (fileOf wire first).length := by
    rw [hindex, committed_indexFor]
  rcases kept.file with ⟨-, -, hnone⟩ | ⟨cut, -, hbytes⟩
  · rw [hnone id] at hheld
    cases hheld
  rw [← hrest, fileOf_append, List.append_assoc] at hbytes
  rw [hlength, hbytes, List.take_left]
  refine ⟨by simp, ?_⟩
  rcases hfinal.file with ⟨hempty, -, -⟩ | ⟨left, -, hleft⟩
  · refine absurd hempty (hsome ?_)
    rw [hbytes]
    exact fileOf_append_ne_nil _ _
  · obtain ⟨others, hothers⟩ := hwritten
    rw [hleft, ← hothers, ← hrest, List.append_assoc first, fileOf_append, List.append_assoc]
    exact List.prefix_append _ _

theorem Kept.accepted (lawful : wire.Lawful) {store : Store} (kept : Kept wire store) {id : Nat}
    {operation : Operation} (appends : Appends wire store (.transact id operation)) {held : Held}
    (hheld : store.handles.get id = some held) {write : Write} {answer : Answer}
    {file : PositionedFile} {index : Index}
    (hprepare : prepare wire ⟨store.bytes, held.position⟩ held.index operation =
      (.ok (some write, answer), file, index)) :
    file.position = index.committed ∧ file.bytes.length = index.committed ∧
      (store.act wire (.transact id operation)).bytes = file.bytes ++ write.framed ∧
      (store.act wire (.transact id operation)).written = store.written ++ [write.stored] := by
  obtain ⟨hfile, hindex, -, -, -, -, -⟩ := kept.write lawful appends rfl hheld hprepare
  have hstand : file.position = file.bytes.length := by rw [hfile]
  simp only [Store.act, hheld, Store.transact, hprepare, PositionedFile.writeAll_at_end hstand]
  rw [hfile, hindex, committed_indexFor]
  exact ⟨rfl, rfl, trivial, trivial⟩

/-- In every run whose steps find the handle at the end of a whole file, committed bytes stay:
each accepted mutation writes its frame behind them, and a full replay of what is left returns
the records that were written. -/
theorem committed_kept (lawful : wire.Lawful) {before after : List (Store × Action)}
    {state final : Store} (reached : Run (Store.Step wire) .empty before state)
    (later : Run (Store.Step wire) state after final)
    (hallowed : ∀ taken ∈ before ++ after, Appends wire taken.1 taken.2) :
    (∀ id held, state.handles.get id = some held →
      held.index.committed ≤ state.bytes.length ∧
        state.bytes.take held.index.committed <+: final.bytes) ∧
      (∀ store id operation held write answer file index,
        (store, .transact id operation) ∈ after → store.handles.get id = some held →
        prepare wire ⟨store.bytes, held.position⟩ held.index operation =
          (.ok (some write, answer), file, index) →
        file.position = index.committed ∧ file.bytes.length = index.committed ∧
          (store.act wire (.transact id operation)).bytes = file.bytes ++ write.framed ∧
          (store.act wire (.transact id operation)).written =
            store.written ++ [write.stored]) ∧
      (final.bytes = [] → final.written = []) ∧
      (final.bytes ≠ [] → ∀ position index,
        fullReplay wire ⟨final.bytes, position⟩ index =
          (.ok (), ⟨final.bytes, final.bytes.length⟩, indexFor wire final.written)) := by
  have hbefore : ∀ taken ∈ before, Appends wire taken.1 taken.2 :=
    fun taken htaken => hallowed taken (List.mem_append_left _ htaken)
  have hafter : ∀ taken ∈ after, Appends wire taken.1 taken.2 :=
    fun taken htaken => hallowed taken (List.mem_append_right _ htaken)
  obtain ⟨kept, -, -⟩ := Kept.empty.run lawful reached hbefore
  obtain ⟨hfinal, hwritten, hsome⟩ := kept.run lawful later hafter
  refine ⟨?_, ?_, ?_, ?_⟩
  · intro id held hheld
    exact kept.committed_prefix hfinal hwritten hsome hheld
  · intro store id operation held write answer file index htaken hheld hprepare
    obtain ⟨left, right, rfl, hleft, -⟩ := later.cut htaken
    obtain ⟨hkept, -, -⟩ := kept.run lawful hleft
      (fun taken hmem => hafter taken (List.mem_append_left _ hmem))
    exact hkept.accepted lawful (hafter _ htaken) hheld hprepare
  · intro hempty
    rcases hfinal.file with ⟨-, hnone, -⟩ | ⟨cut, -, hbytes⟩
    · exact hnone
    · rw [hempty] at hbytes
      exact absurd hbytes.symm (fileOf_append_ne_nil _ _)
  · intro hne position index
    rcases hfinal.file with ⟨hempty, -, -⟩ | ⟨cut, hcut, hbytes⟩
    · exact absurd hempty hne
    · exact fullReplay_file lawful hfinal.writable hcut hbytes

theorem Appends.transact {store : Store} {id : Nat} {operation : Operation}
    (hwhole : Whole wire store.bytes)
    (hposition : (store.handles.get id).all fun held =>
      held.position = held.index.committed) :
    Appends wire store (.transact id operation) := by
  refine ⟨?_, ?_⟩
  · intro asked mutation held write answer file index hmutates hheld _
    cases hmutates
    rw [hheld] at hposition
    exact ⟨hwhole, fun _ => of_decide_eq_true hposition⟩
  · intro asked moved haction
    cases haction

theorem Appends.opens {store : Store} (id : Nat) : Appends wire store (.opens id) := by
  refine ⟨?_, ?_⟩
  · intro asked mutation held write answer file index hmutates
    cases hmutates
  · intro asked moved haction
    cases haction

namespace PlainWire

def initAction : Action := .transact 0 (.initPolicy "t" "" 0 "")

def beginAction : Action := .transact 0 (.beginRun ⟨"r", "t", "", "", 0, "", ""⟩ ["l"])

def appends (store : Store) : Action → Bool
  | .opens _ => true
  | .transact id _ =>
    store.bytes = fileOf plain store.written &&
      (store.written.all fun stored => isKnownKind stored.kind &&
        isPossibleLength (archived plain stored).length maxFrameBytes) &&
      (store.handles.get id).all fun held => held.position = held.index.committed
  | _ => false

theorem appends_sound {store : Store} {action : Action} (h : appends store action = true) :
    Appends plain store action := by
  cases action with
  | opens id => exact .opens id
  | transact id operation =>
    unfold appends at h
    rw [Bool.and_eq_true, Bool.and_eq_true, List.all_eq_true] at h
    obtain ⟨⟨hbytes, hwritten⟩, hposition⟩ := h
    refine .transact ⟨store.written, ?_, of_decide_eq_true hbytes⟩ hposition
    intro stored hstored
    obtain ⟨hkind, hsize⟩ := Bool.and_eq_true_iff.mp (hwritten stored hstored)
    have hroom := (isPossibleLength_iff.mp hsize).2
    unfold maxFrameBytes at hroom
    exact writable_record hkind hsize (by omega)
  | observe | crashOpen | crashTransact | loseSnapshot => cases h

theorem appends_all {trace : List (Store × Action)}
    (h : (trace.all fun taken => appends taken.1 taken.2) = true) :
    ∀ taken ∈ trace, Appends plain taken.1 taken.2 :=
  fun taken htaken => appends_sound (List.all_eq_true.mp h taken htaken)

def policyStore : Store := [.opens 0, initAction].foldl (Store.act plain) .empty

/-- Two mutations by the handle that made the store. -/
theorem committed_kept_two :
    fullReplay plain ⟨(policyStore.act plain beginAction).bytes, 0⟩ (.fresh plain) =
      (.ok (), ⟨(policyStore.act plain beginAction).bytes,
          (policyStore.act plain beginAction).bytes.length⟩,
        indexFor plain (policyStore.act plain beginAction).written) := by
  obtain ⟨-, -, -, hreplay⟩ := committed_kept lawful
    (Run.ofActions (Store.act plain) .empty [.opens 0, initAction])
    (Run.ofActions (Store.act plain) policyStore [beginAction])
    (appends_all (by decide +kernel))
  refine hreplay ?_ 0 (.fresh plain)
  decide +kernel

/-- A writer dies one byte into its frame, and another handle opens over the torn tail. -/
def tornActions : List Action :=
  [.opens 0, .crashTransact 0 (.initPolicy "t" "" 0 "") 1, .opens 1]

def tornStore : Store := tornActions.foldl (Store.act plain) .empty

def mutateAction : Action := .transact 1 (.initPolicy "t" "" 0 "")

/-- The next mutation is accepted and writes one byte behind the committed length, and the file
no longer replays. -/
theorem mutation_behind_tear :
    Run (Store.Step plain) .empty (traceOf (Store.act plain) .empty (tornActions ++ [mutateAction]))
        (tornStore.act plain mutateAction) ∧
      (tornStore.handles.get 1).map (fun held => (held.position, held.index.committed)) =
        some (17, 16) ∧
      (tornStore.act plain mutateAction).written = [policyRecord] ∧
      (fullReplay plain ⟨(tornStore.act plain mutateAction).bytes, 0⟩ (.fresh plain)).1 =
        .error (.corrupt 0) := by
  refine ⟨Run.ofActions _ _ _, ?_, ?_, ?_⟩
  · decide +kernel
  · decide +kernel
  · decide +kernel

end PlainWire

end LogicalWorks.Tenant
