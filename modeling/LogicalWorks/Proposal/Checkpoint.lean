import LogicalWorks.Proposal.Codec
import Mathlib.Data.List.Dedup

/-! What a run carries across a reset of its context, in four lists with a ceiling each. -/
namespace LogicalWorks.Proposal
open LogicalWorks.Task (utf8)

def maxEvidenceRefs : Nat := 64

def maxCheckpointSteps : Nat := 256

def maxCheckpointNotes : Nat := 64

def maxCheckpointEvidence : Nat := maxEvidenceRefs

inductive CorrectionKind where
  | override | refusal
  deriving DecidableEq, Repr

structure Correction where
  kind : CorrectionKind
  text : Text
  deriving DecidableEq, Repr

inductive EffectNoteKind where
  | notApplied | applied | unknown
  deriving DecidableEq, Repr

structure EffectNote where
  reference : Text
  kind : EffectNoteKind
  deriving DecidableEq, Repr

structure Checkpoint where
  steps : List Text
  corrections : List Correction
  effects : List EffectNote
  evidence : List Text
  deriving DecidableEq, Repr

inductive CheckpointError where
  | limit (what : String) (got limit : Nat)
  deriving DecidableEq, Repr

def checkPush {α : Type} (list : List α) (ceiling : Nat) (what : String) :
    Except CheckpointError Unit :=
  let wouldHold := list.length + 1
  if ceiling < wouldHold then .error (.limit what wouldHold ceiling) else .ok ()

def replaceNote (note : EffectNote) : List EffectNote → List EffectNote
  | [] => []
  | held :: rest =>
    if held.reference = note.reference then note :: rest else held :: replaceNote note rest

namespace Checkpoint

def new : Checkpoint := ⟨[], [], [], []⟩

def completed (checkpoint : Checkpoint) (step : Text) : Bool := decide (step ∈ checkpoint.steps)

def complete (checkpoint : Checkpoint) (step : Text) :
    Except CheckpointError Unit × Checkpoint :=
  if checkpoint.completed step then (.ok (), checkpoint)
  else match checkPush checkpoint.steps maxCheckpointSteps "completed steps" with
    | .error error => (.error error, checkpoint)
    | .ok () => (.ok (), { checkpoint with steps := checkpoint.steps ++ [step] })

def correct (checkpoint : Checkpoint) (kind : CorrectionKind) (text : Text) :
    Except CheckpointError Unit × Checkpoint :=
  let corrections := checkpoint.corrections ++ [⟨kind, text⟩]
  (checkPush corrections maxCheckpointNotes "user corrections", { checkpoint with corrections })

def observeEffect (checkpoint : Checkpoint) (reference : Text) (kind : EffectNoteKind) :
    Except CheckpointError Unit × Checkpoint :=
  let note : EffectNote := ⟨reference, kind⟩
  if reference ∈ checkpoint.effects.map EffectNote.reference then
    (.ok (), { checkpoint with effects := replaceNote note checkpoint.effects })
  else match checkPush checkpoint.effects maxCheckpointNotes "effect notes" with
    | .error error => (.error error, checkpoint)
    | .ok () => (.ok (), { checkpoint with effects := checkpoint.effects ++ [note] })

def recordEvidence (checkpoint : Checkpoint) (reference : Text) :
    Except CheckpointError Unit × Checkpoint :=
  if reference ∈ checkpoint.evidence then (.ok (), checkpoint)
  else match checkPush checkpoint.evidence maxCheckpointEvidence "evidence references" with
    | .error error => (.error error, checkpoint)
    | .ok () => (.ok (), { checkpoint with evidence := checkpoint.evidence ++ [reference] })

end Checkpoint

inductive CheckpointCall where
  | complete (step : Text)
  | correct (kind : CorrectionKind) (text : Text)
  | observeEffect (reference : Text) (kind : EffectNoteKind)
  | recordEvidence (reference : Text)
  deriving DecidableEq, Repr

def Checkpoint.call (checkpoint : Checkpoint) :
    CheckpointCall → Except CheckpointError Unit × Checkpoint
  | .complete step => checkpoint.complete step
  | .correct kind text => checkpoint.correct kind text
  | .observeEffect reference kind => checkpoint.observeEffect reference kind
  | .recordEvidence reference => checkpoint.recordEvidence reference

def Checkpoint.run (checkpoint : Checkpoint) (calls : List CheckpointCall) : Checkpoint :=
  calls.foldl (fun checkpoint call => (checkpoint.call call).2) checkpoint

section Histories

def CheckpointCall.isCorrect : CheckpointCall → Bool
  | .correct _ _ => true
  | _ => false

def accepted (checkpoint : Checkpoint) : List CheckpointCall → List CheckpointCall
  | [] => []
  | call :: calls =>
    (if (checkpoint.call call).1 = .ok () then [call] else []) ++
      accepted (checkpoint.call call).2 calls

def stepsOf (calls : List CheckpointCall) : List Text :=
  calls.filterMap fun
    | .complete step => some step
    | _ => none

def referencesOf (calls : List CheckpointCall) : List Text :=
  calls.filterMap fun
    | .observeEffect reference _ => some reference
    | _ => none

def evidenceOf (calls : List CheckpointCall) : List Text :=
  calls.filterMap fun
    | .recordEvidence reference => some reference
    | _ => none

/-- A new entry for a list that has accepted as many as its ceiling allows. -/
def Full (taken : List CheckpointCall) : CheckpointCall → Prop
  | .complete step => step ∉ stepsOf taken ∧ (stepsOf taken).dedup.length = maxCheckpointSteps
  | .correct _ _ => taken.countP CheckpointCall.isCorrect = maxCheckpointNotes
  | .observeEffect reference _ =>
    reference ∉ referencesOf taken ∧ (referencesOf taken).dedup.length = maxCheckpointNotes
  | .recordEvidence reference =>
    reference ∉ evidenceOf taken ∧ (evidenceOf taken).dedup.length = maxCheckpointEvidence

def HasFact (checkpoint : Checkpoint) : CheckpointCall → Prop
  | .complete step => step ∈ checkpoint.steps
  | .correct kind text => checkpoint.corrections.getLast? = some ⟨kind, text⟩
  | .observeEffect reference kind =>
    ∀ note, (note ∈ checkpoint.effects ∧ note.reference = reference) ↔ note = ⟨reference, kind⟩
  | .recordEvidence reference => reference ∈ checkpoint.evidence

structure Bounded (checkpoint : Checkpoint) : Prop where
  steps : checkpoint.steps.length ≤ maxCheckpointSteps
  corrections : checkpoint.corrections.length ≤ maxCheckpointNotes
  effects : checkpoint.effects.length ≤ maxCheckpointNotes
  evidence : checkpoint.evidence.length ≤ maxCheckpointEvidence

structure ObeysCeilings (calls : List CheckpointCall) : Prop where
  bounded : ∀ before after, calls = before ++ after → Bounded (Checkpoint.new.run before)
  atomic : ∀ before call after error, calls = before ++ call :: after →
    ((Checkpoint.new.run before).call call).1 = .error error →
      ((Checkpoint.new.run before).call call).2 = Checkpoint.new.run before
  recorded : ∀ before call after, calls = before ++ call :: after →
    ((Checkpoint.new.run before).call call).1 = .ok () →
      HasFact ((Checkpoint.new.run before).call call).2 call
  refused : ∀ before call after, calls = before ++ call :: after →
    ((∃ error, ((Checkpoint.new.run before).call call).1 = .error error) ↔
      Full (accepted Checkpoint.new before) call)

theorem accepted_append (checkpoint : Checkpoint) (before after : List CheckpointCall) :
    accepted checkpoint (before ++ after) =
      accepted checkpoint before ++ accepted (checkpoint.run before) after := by
  induction before generalizing checkpoint with
  | nil => rfl
  | cons call before ih =>
    rw [List.cons_append, accepted, accepted, ih, List.append_assoc]
    rfl

theorem accepted_concat (checkpoint : Checkpoint) (before : List CheckpointCall)
    (call : CheckpointCall) :
    accepted checkpoint (before ++ [call]) = accepted checkpoint before ++
      if ((checkpoint.run before).call call).1 = .ok () then [call] else [] := by
  rw [accepted_append, accepted, accepted, List.append_nil]

theorem run_concat (checkpoint : Checkpoint) (before : List CheckpointCall)
    (call : CheckpointCall) :
    checkpoint.run (before ++ [call]) = ((checkpoint.run before).call call).2 := by
  rw [Checkpoint.run, List.foldl_append]
  rfl

end Histories

section Distinct

structure Holds (held taken : List Text) : Prop where
  nodup : held.Nodup
  mem_iff : ∀ key, key ∈ held ↔ key ∈ taken

variable {held taken : List Text} {key : Text}

theorem Holds.length (h : Holds held taken) : held.length = taken.dedup.length := by
  refine ((List.perm_ext_iff_of_nodup h.nodup taken.nodup_dedup).mpr fun key => ?_).length_eq
  rw [h.mem_iff, List.mem_dedup]

theorem Holds.again (h : Holds held taken) (hkey : key ∈ held) : Holds held (taken ++ [key]) := by
  refine ⟨h.nodup, fun other => ?_⟩
  rw [h.mem_iff, List.mem_append, List.mem_singleton]
  refine (or_iff_left_of_imp ?_).symm
  rintro rfl
  exact (h.mem_iff _).mp hkey

theorem Holds.more (h : Holds held taken) (hkey : key ∉ held) :
    Holds (held ++ [key]) (taken ++ [key]) := by
  refine ⟨?_, fun other => ?_⟩
  · rw [List.nodup_append]
    refine ⟨h.nodup, List.nodup_singleton key, fun other hother same hsame => ?_⟩
    rw [List.mem_singleton.mp hsame]
    exact fun heq => hkey (heq ▸ hother)
  · rw [List.mem_append, List.mem_append, h.mem_iff]

inductive Takes (held : List Text) (key : Text) (ceiling : Nat) :
    Except CheckpointError Unit → List Text → Prop where
  | again : key ∈ held → Takes held key ceiling (.ok ()) held
  | more : key ∉ held → held.length < ceiling → Takes held key ceiling (.ok ()) (held ++ [key])
  | refused (error : CheckpointError) : key ∉ held → ceiling ≤ held.length →
      Takes held key ceiling (.error error) held

variable {ceiling : Nat} {answer : Except CheckpointError Unit} {next : List Text}

theorem Takes.holds (h : Takes held key ceiling answer next) (hheld : Holds held taken) :
    Holds next (taken ++ if answer = .ok () then [key] else []) := by
  cases h with
  | again hkey => exact hheld.again hkey
  | more hkey => exact hheld.more hkey
  | refused error hkey =>
    have hnot : ¬ (Except.error error : Except CheckpointError Unit) = .ok () := fun h => nomatch h
    rw [if_neg hnot, List.append_nil]
    exact hheld

theorem Takes.length_le (h : Takes held key ceiling answer next) (hheld : held.length ≤ ceiling) :
    next.length ≤ ceiling := by
  cases h with
  | again => exact hheld
  | more _ hroom =>
    rw [List.length_append]
    exact hroom
  | refused => exact hheld

theorem Takes.unchanged {error : CheckpointError}
    (h : Takes held key ceiling (.error error) next) : next = held := by
  cases h
  rfl

theorem Takes.mem (h : Takes held key ceiling (.ok ()) next) : key ∈ next := by
  cases h with
  | again hkey => exact hkey
  | more => exact List.mem_append_right _ (List.mem_singleton_self key)

theorem Takes.refused_iff (h : Takes held key ceiling answer next) (hheld : Holds held taken)
    (hbound : held.length ≤ ceiling) :
    (∃ error, answer = .error error) ↔ key ∉ taken ∧ taken.dedup.length = ceiling := by
  rw [← hheld.mem_iff, ← hheld.length]
  cases h with
  | again hkey => exact iff_of_false (fun ⟨_, h⟩ => nomatch h) fun h => h.1 hkey
  | more hkey hroom => exact iff_of_false (fun ⟨_, h⟩ => nomatch h) fun h => (Nat.ne_of_lt hroom) h.2
  | refused error hkey hfull =>
    exact iff_of_true ⟨error, rfl⟩ ⟨hkey, Nat.le_antisymm hbound hfull⟩

end Distinct

section Operations

variable {checkpoint : Checkpoint}

theorem complete_takes (checkpoint : Checkpoint) (step : Text) :
    ∃ answer next, Takes checkpoint.steps step maxCheckpointSteps answer next ∧
      checkpoint.complete step = (answer, { checkpoint with steps := next }) := by
  unfold Checkpoint.complete Checkpoint.completed checkPush
  by_cases hheld : step ∈ checkpoint.steps
  · exact ⟨_, _, .again hheld, if_pos (decide_eq_true hheld)⟩
  · rw [if_neg fun h => hheld (of_decide_eq_true h)]
    by_cases hfull : maxCheckpointSteps < checkpoint.steps.length + 1
    · simp only [if_pos hfull]
      exact ⟨_, _, .refused _ hheld (Nat.le_of_lt_succ hfull), rfl⟩
    · simp only [if_neg hfull]
      exact ⟨_, _, .more hheld (Nat.not_lt.mp hfull), rfl⟩

theorem recordEvidence_takes (checkpoint : Checkpoint) (reference : Text) :
    ∃ answer next, Takes checkpoint.evidence reference maxCheckpointEvidence answer next ∧
      checkpoint.recordEvidence reference = (answer, { checkpoint with evidence := next }) := by
  unfold Checkpoint.recordEvidence checkPush
  by_cases hheld : reference ∈ checkpoint.evidence
  · exact ⟨_, _, .again hheld, if_pos hheld⟩
  · rw [if_neg hheld]
    by_cases hfull : maxCheckpointEvidence < checkpoint.evidence.length + 1
    · simp only [if_pos hfull]
      exact ⟨_, _, .refused _ hheld (Nat.le_of_lt_succ hfull), rfl⟩
    · simp only [if_neg hfull]
      exact ⟨_, _, .more hheld (Nat.not_lt.mp hfull), rfl⟩

theorem replaceNote_references (note : EffectNote) (effects : List EffectNote) :
    (replaceNote note effects).map EffectNote.reference =
      effects.map EffectNote.reference := by
  induction effects with
  | nil => rfl
  | cons held rest ih =>
    rw [replaceNote]
    by_cases hsame : held.reference = note.reference
    · rw [if_pos hsame, List.map_cons, List.map_cons, hsame]
    · rw [if_neg hsame, List.map_cons, List.map_cons, ih]

theorem mem_replaceNote {note : EffectNote} {effects : List EffectNote}
    (h : note.reference ∈ effects.map EffectNote.reference) : note ∈ replaceNote note effects := by
  induction effects with
  | nil => cases h
  | cons held rest ih =>
    rw [replaceNote]
    by_cases hsame : held.reference = note.reference
    · rw [if_pos hsame]
      exact List.mem_cons_self
    · rw [if_neg hsame]
      rw [List.map_cons, List.mem_cons] at h
      exact List.mem_cons_of_mem _ (ih (h.resolve_left (Ne.symm hsame)))

theorem observeEffect_takes (checkpoint : Checkpoint) (reference : Text) (kind : EffectNoteKind) :
    ∃ answer next effects,
      Takes (checkpoint.effects.map EffectNote.reference) reference maxCheckpointNotes answer
        next ∧
      effects.map EffectNote.reference = next ∧
      (answer = .ok () → (⟨reference, kind⟩ : EffectNote) ∈ effects) ∧
      (answer ≠ .ok () → effects = checkpoint.effects) ∧
      checkpoint.observeEffect reference kind = (answer, { checkpoint with effects }) := by
  unfold Checkpoint.observeEffect checkPush
  by_cases hheld : reference ∈ checkpoint.effects.map EffectNote.reference
  · exact ⟨_, _, replaceNote ⟨reference, kind⟩ checkpoint.effects, .again hheld,
      replaceNote_references _ _, fun _ => mem_replaceNote hheld, fun h => absurd rfl h,
      if_pos hheld⟩
  · rw [if_neg hheld]
    by_cases hfull : maxCheckpointNotes < checkpoint.effects.length + 1
    · simp only [if_pos hfull]
      refine ⟨_, _, checkpoint.effects, .refused _ hheld ?_, rfl, ?_, fun _ => rfl, rfl⟩
      · rw [List.length_map]
        exact Nat.le_of_lt_succ hfull
      · intro h
        cases h
    · simp only [if_neg hfull]
      refine ⟨_, _, checkpoint.effects ++ [⟨reference, kind⟩], .more hheld ?_, List.map_append,
        fun _ => List.mem_append_right _ (List.mem_singleton_self _), fun h => absurd rfl h, rfl⟩
      rw [List.length_map]
      exact Nat.not_lt.mp hfull

theorem correct_eq (checkpoint : Checkpoint) (kind : CorrectionKind) (text : Text) :
    checkpoint.correct kind text =
      (if checkpoint.corrections.length + 1 < maxCheckpointNotes then .ok ()
        else .error (.limit "user corrections" (checkpoint.corrections.length + 2)
          maxCheckpointNotes),
        { checkpoint with corrections := checkpoint.corrections ++ [⟨kind, text⟩] }) := by
  unfold Checkpoint.correct checkPush
  simp only [List.length_append, List.length_singleton]
  by_cases hroom : checkpoint.corrections.length + 1 < maxCheckpointNotes
  · rw [if_pos hroom, if_neg (Nat.not_lt.mpr (Nat.succ_le_of_lt hroom))]
  · rw [if_neg hroom, if_pos (Nat.lt_succ_of_le (Nat.not_lt.mp hroom))]

end Operations

section Runs

structure Keeps (calls : List CheckpointCall) (checkpoint : Checkpoint) : Prop where
  steps : Holds checkpoint.steps (stepsOf (accepted .new calls))
  effects : Holds (checkpoint.effects.map EffectNote.reference)
    (referencesOf (accepted .new calls))
  evidence : Holds checkpoint.evidence (evidenceOf (accepted .new calls))
  corrections : checkpoint.corrections.length = calls.countP CheckpointCall.isCorrect
  stepsBound : checkpoint.steps.length ≤ maxCheckpointSteps
  effectsBound : (checkpoint.effects.map EffectNote.reference).length ≤ maxCheckpointNotes
  evidenceBound : checkpoint.evidence.length ≤ maxCheckpointEvidence

theorem filterMap_concat {α β : Type} (pick : α → Option β) (items : List α) (condition : Prop)
    [Decidable condition] (item : α) :
    (items ++ if condition then [item] else []).filterMap pick =
      items.filterMap pick ++ if condition then (pick item).toList else [] := by
  rw [List.filterMap_append]
  split
  · cases hpick : pick item <;> simp [hpick]
  · rfl

theorem keeps_run (calls : List CheckpointCall) : Keeps calls (Checkpoint.new.run calls) := by
  induction calls using List.reverseRecOn with
  | nil =>
    exact ⟨⟨List.nodup_nil, fun _ => Iff.rfl⟩, ⟨List.nodup_nil, fun _ => Iff.rfl⟩,
      ⟨List.nodup_nil, fun _ => Iff.rfl⟩, rfl, Nat.zero_le _, Nat.zero_le _, Nat.zero_le _⟩
  | append_singleton calls call ih =>
    obtain ⟨checkpoint, hcheckpoint⟩ : ∃ checkpoint, Checkpoint.new.run calls = checkpoint :=
      ⟨_, rfl⟩
    have hcount : (calls ++ [call]).countP CheckpointCall.isCorrect =
        calls.countP CheckpointCall.isCorrect + if call.isCorrect = true then 1 else 0 := by
      rw [List.countP_append, List.countP_singleton]
    have hkept {pick : CheckpointCall → Option Text} {held : List Text}
        (hheld : Holds held ((accepted .new calls).filterMap pick)) (hpick : pick call = none) :
        Holds held ((accepted .new (calls ++ [call])).filterMap pick) := by
      rw [accepted_concat, filterMap_concat, hpick]
      split <;> simpa using hheld
    have htook {pick : CheckpointCall → Option Text} {key : Text} {held next : List Text}
        {ceiling : Nat} {answer : Except CheckpointError Unit}
        (hheld : Holds held ((accepted .new calls).filterMap pick)) (hpick : pick call = some key)
        (htakes : Takes held key ceiling answer next)
        (hanswer : ((Checkpoint.new.run calls).call call).1 = answer) :
        Holds next ((accepted .new (calls ++ [call])).filterMap pick) := by
      rw [accepted_concat, filterMap_concat, hpick, hanswer]
      exact htakes.holds hheld
    rw [run_concat]
    rw [hcheckpoint] at ih htook ⊢
    cases call with
    | complete step =>
      obtain ⟨answer, next, htakes, heq⟩ := complete_takes checkpoint step
      rw [Checkpoint.call, heq]
      exact ⟨htook ih.steps rfl htakes (congrArg Prod.fst heq), hkept ih.effects rfl,
        hkept ih.evidence rfl, ih.corrections.trans hcount.symm, htakes.length_le ih.stepsBound,
        ih.effectsBound, ih.evidenceBound⟩
    | correct kind text =>
      rw [Checkpoint.call, correct_eq]
      refine ⟨hkept ih.steps rfl, hkept ih.effects rfl, hkept ih.evidence rfl, ?_, ih.stepsBound,
        ih.effectsBound, ih.evidenceBound⟩
      rw [hcount, List.length_append, ih.corrections]
      rfl
    | observeEffect reference kind =>
      obtain ⟨answer, next, effects, htakes, hnext, -, -, heq⟩ :=
        observeEffect_takes checkpoint reference kind
      rw [Checkpoint.call, heq]
      refine ⟨hkept ih.steps rfl, ?_, hkept ih.evidence rfl, ih.corrections.trans hcount.symm,
        ih.stepsBound, ?_, ih.evidenceBound⟩
      · rw [hnext]
        exact htook ih.effects rfl htakes (congrArg Prod.fst heq)
      · rw [hnext]
        exact htakes.length_le ih.effectsBound
    | recordEvidence reference =>
      obtain ⟨answer, next, htakes, heq⟩ := recordEvidence_takes checkpoint reference
      rw [Checkpoint.call, heq]
      exact ⟨hkept ih.steps rfl, hkept ih.effects rfl,
        htook ih.evidence rfl htakes (congrArg Prod.fst heq), ih.corrections.trans hcount.symm,
        ih.stepsBound, ih.effectsBound, htakes.length_le ih.evidenceBound⟩

theorem accepted_corrects {calls : List CheckpointCall}
    (h : calls.countP CheckpointCall.isCorrect < maxCheckpointNotes) :
    (accepted .new calls).countP CheckpointCall.isCorrect =
      calls.countP CheckpointCall.isCorrect := by
  induction calls using List.reverseRecOn with
  | nil => rfl
  | append_singleton calls call ih =>
    rw [List.countP_append] at h
    rw [accepted_concat, List.countP_append, List.countP_append, ih (by omega)]
    congr 1
    by_cases hcorrect : call.isCorrect = true
    · cases call with
      | correct kind text =>
        have hcount := (keeps_run calls).corrections
        rw [List.countP_singleton, if_pos hcorrect] at h
        have hroom : (Checkpoint.new.run calls).corrections.length + 1 < maxCheckpointNotes := by
          rw [hcount]
          exact h
        rw [Checkpoint.call, correct_eq, if_pos hroom, if_pos rfl]
      | complete step => cases hcorrect
      | observeEffect reference kind => cases hcorrect
      | recordEvidence reference => cases hcorrect
    · split
      · rfl
      · rw [List.countP_singleton, if_neg hcorrect]
        rfl

theorem exists_countP_eq {α : Type} {asked : α → Bool} {items : List α} {count : Nat}
    (h : count < items.countP asked) :
    ∃ before item after, items = before ++ item :: after ∧ before.countP asked = count ∧
      asked item = true := by
  induction items generalizing count with
  | nil => cases h
  | cons item items ih =>
    by_cases hitem : asked item = true
    · cases count with
      | zero => exact ⟨[], item, items, rfl, rfl, hitem⟩
      | succ count =>
        rw [List.countP_cons_of_pos hitem] at h
        obtain ⟨before, other, after, rfl, hcount, hother⟩ := ih (Nat.lt_of_succ_lt_succ h)
        exact ⟨item :: before, other, after, rfl,
          (List.countP_cons_of_pos hitem).trans (congrArg Nat.succ hcount), hother⟩
    · rw [List.countP_cons_of_neg hitem] at h
      obtain ⟨before, other, after, rfl, hcount, hother⟩ := ih h
      exact ⟨item :: before, other, after, rfl, (List.countP_cons_of_neg hitem).trans hcount,
        hother⟩

section Step

variable {before : List CheckpointCall} {call : CheckpointCall}

theorem call_atomic (hfew : (before ++ [call]).countP CheckpointCall.isCorrect < maxCheckpointNotes)
    {error : CheckpointError}
    (hanswer : ((Checkpoint.new.run before).call call).1 = .error error) :
    ((Checkpoint.new.run before).call call).2 = Checkpoint.new.run before := by
  cases call with
  | complete step =>
    obtain ⟨answer', next, htakes, heq⟩ := complete_takes (Checkpoint.new.run before) step
    rw [Checkpoint.call, heq] at hanswer ⊢
    cases hanswer
    rw [htakes.unchanged]
  | correct kind text =>
    rw [List.countP_append, List.countP_cons_of_pos rfl, List.countP_nil,
      ← (keeps_run before).corrections] at hfew
    rw [Checkpoint.call, correct_eq, if_pos hfew] at hanswer
    cases hanswer
  | observeEffect reference kind =>
    obtain ⟨answer', next, effects, htakes, hnext, hin, hsame, heq⟩ :=
      observeEffect_takes (Checkpoint.new.run before) reference kind
    rw [Checkpoint.call, heq] at hanswer ⊢
    cases hanswer
    rw [hsame fun h => nomatch h]
  | recordEvidence reference =>
    obtain ⟨answer', next, htakes, heq⟩ :=
      recordEvidence_takes (Checkpoint.new.run before) reference
    rw [Checkpoint.call, heq] at hanswer ⊢
    cases hanswer
    rw [htakes.unchanged]

theorem call_recorded (hanswer : ((Checkpoint.new.run before).call call).1 = .ok ()) :
    HasFact ((Checkpoint.new.run before).call call).2 call := by
  have hnext := keeps_run (before ++ [call])
  rw [run_concat] at hnext
  cases call with
  | complete step =>
    obtain ⟨answer', next, htakes, heq⟩ := complete_takes (Checkpoint.new.run before) step
    rw [Checkpoint.call, heq] at hanswer ⊢
    cases hanswer
    exact htakes.mem
  | correct kind text =>
    rw [Checkpoint.call, correct_eq]
    exact List.getLast?_concat
  | observeEffect reference kind =>
    obtain ⟨answer', next, effects, htakes, heffects, hin, hsame, heq⟩ :=
      observeEffect_takes (Checkpoint.new.run before) reference kind
    rw [Checkpoint.call, heq] at hanswer hnext ⊢
    cases hanswer
    intro note
    constructor
    · rintro ⟨hnote, hreference⟩
      exact List.inj_on_of_nodup_map hnext.effects.nodup hnote (hin rfl) hreference
    · rintro rfl
      exact ⟨hin rfl, rfl⟩
  | recordEvidence reference =>
    obtain ⟨answer', next, htakes, heq⟩ :=
      recordEvidence_takes (Checkpoint.new.run before) reference
    rw [Checkpoint.call, heq] at hanswer ⊢
    cases hanswer
    exact htakes.mem

theorem call_refused_iff
    (hfew : (before ++ [call]).countP CheckpointCall.isCorrect < maxCheckpointNotes) :
    (∃ error, ((Checkpoint.new.run before).call call).1 = .error error) ↔
      Full (accepted Checkpoint.new before) call := by
  have hkeeps := keeps_run before
  cases call with
  | complete step =>
    obtain ⟨answer', next, htakes, heq⟩ := complete_takes (Checkpoint.new.run before) step
    rw [Checkpoint.call, heq]
    exact htakes.refused_iff hkeeps.steps hkeeps.stepsBound
  | correct kind text =>
    rw [List.countP_append, List.countP_cons_of_pos rfl, List.countP_nil] at hfew
    rw [Checkpoint.call, correct_eq, hkeeps.corrections, if_pos hfew, Full,
      accepted_corrects (by omega)]
    exact iff_of_false (fun ⟨_, h⟩ => nomatch h) (by omega)
  | observeEffect reference kind =>
    obtain ⟨answer', next, effects, htakes, hnext, hin, hsame, heq⟩ :=
      observeEffect_takes (Checkpoint.new.run before) reference kind
    rw [Checkpoint.call, heq]
    exact htakes.refused_iff hkeeps.effects hkeeps.effectsBound
  | recordEvidence reference =>
    obtain ⟨answer', next, htakes, heq⟩ :=
      recordEvidence_takes (Checkpoint.new.run before) reference
    rw [Checkpoint.call, heq]
    exact htakes.refused_iff hkeeps.evidence hkeeps.evidenceBound

end Step

/-- Calls keep to the ceilings as long as they make fewer corrections than theirs. -/
theorem obeys_ceilings_iff (calls : List CheckpointCall) :
    ObeysCeilings calls ↔ calls.countP CheckpointCall.isCorrect < maxCheckpointNotes := by
  constructor
  · intro h
    refine Nat.not_le.mp fun hmany => ?_
    obtain ⟨before, call, after, hcalls, hcount, hcorrect⟩ :=
      exists_countP_eq (Nat.lt_of_lt_of_le (Nat.pred_lt (show maxCheckpointNotes ≠ 0 by decide))
        hmany)
    cases call with
    | correct kind text =>
      have hlength := (keeps_run before).corrections
      have hatomic := h.atomic before _ after (.limit "user corrections"
        ((Checkpoint.new.run before).corrections.length + 2) maxCheckpointNotes) hcalls (by
          rw [Checkpoint.call, correct_eq, if_neg]
          rw [hlength, hcount]
          decide)
      rw [Checkpoint.call, correct_eq] at hatomic
      have hcorrections := congrArg (fun checkpoint => checkpoint.corrections.length) hatomic
      rw [List.length_append] at hcorrections
      exact absurd hcorrections (Nat.succ_ne_self _)
    | complete step => cases hcorrect
    | observeEffect reference kind => cases hcorrect
    | recordEvidence reference => cases hcorrect
  · intro hfew
    have hprefix {before after : List CheckpointCall} (hcalls : calls = before ++ after) :
        before.countP CheckpointCall.isCorrect < maxCheckpointNotes := by
      rw [hcalls, List.countP_append] at hfew
      omega
    have hstep {before after : List CheckpointCall} {call : CheckpointCall}
        (hcalls : calls = before ++ call :: after) :
        (before ++ [call]).countP CheckpointCall.isCorrect < maxCheckpointNotes :=
      hprefix (hcalls.trans (List.append_cons before call after))
    refine ⟨fun before after hcalls => ?_, fun before call after error hcalls hanswer => ?_,
      fun before call after hcalls hanswer => ?_, fun before call after hcalls => ?_⟩
    · have hkeeps := keeps_run before
      have hcount := hprefix hcalls
      refine ⟨hkeeps.stepsBound, ?_, ?_, hkeeps.evidenceBound⟩
      · rw [hkeeps.corrections]
        omega
      · have hbound := hkeeps.effectsBound
        rwa [List.length_map] at hbound
    · exact call_atomic (hstep hcalls) hanswer
    · exact call_recorded hanswer
    · exact call_refused_iff (hstep hcalls)

/-- Corrections that are one too many for a list that refuses the last one it could hold. -/
theorem correction_recorded_and_refused :
    ¬ ∀ calls : List CheckpointCall, ObeysCeilings calls := by
  intro h
  have hatomic := (h (List.replicate 64 (.correct .override (utf8 "a")))).atomic
    (List.replicate 63 (.correct .override (utf8 "a"))) (.correct .override (utf8 "a")) []
    (.limit "user corrections" 65 64) rfl (by decide +kernel)
  exact absurd hatomic (by decide +kernel)

end Runs

end LogicalWorks.Proposal
