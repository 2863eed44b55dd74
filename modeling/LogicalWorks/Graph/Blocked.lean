import LogicalWorks.Graph.Governed
import LogicalWorks.Graph.Runnable
import Mathlib.Data.String.Basic

/-! Which needs a blocked node is reported to wait for: those that were lost when the pass that
blocked it came to it, and all that are lost behind the pass exactly where it comes to no node
before one of its needs.  And what each node comes to, which the declaration and the answers of
the bodies leave no choice about. -/
namespace LogicalWorks.Graph

variable {ε T : Type} {nodes : List GraphNode} {plan : Plan} {width : Nat}

namespace Scheduler

/-- The open nodes that a stack leads to, in the order they are come to behind those that were. -/
def visit (run : Scheduler ε T) : Nat → List Nat → List Nat → List Nat
  | 0, _, reached => reached
  | _, [], reached => reached
  | fuel + 1, at_ :: stack, reached =>
    if run.isOpen at_ && decide (at_ ∉ reached) then
      visit run fuel ((run.plan.below at_).reverse ++ stack) (reached ++ [at_])
    else visit run fuel stack reached

/-- The open nodes below a node that fails, in the order the pass comes to them. -/
def reached (run : Scheduler ε T) (index : Nat) : List Nat :=
  (run.plan.below index).foldl (fun reached next => run.visit (run.edges + 1) [next] reached) []

end Scheduler

structure Blames (nodes : List GraphNode) (run : Scheduler ε T) (at_ : Nat) (names : List String) :
    Prop where
  sorted : names.Pairwise (· < ·)
  mem_iff : ∀ name, name ∈ names ↔ ∃ need needed, Needs nodes at_ need ∧
    nodes[need]? = some needed ∧ needed.name = name ∧ run.lost need = true

/-- Where a turn fails a node, the pass comes to none of the nodes below before one of its
needs. -/
def InOrder (nodes : List GraphNode) (taken : Call ε T × Turn ε T) : Prop :=
  ∀ position rest polled running error, taken.1.phase = .polling (position :: rest) polled →
    taken.1.run.slots.get position = some running → taken.2 = .poll (some (.error error)) →
      ∀ left at_ right, taken.1.run.reached running.index = left ++ at_ :: right →
        ∀ need, Needs nodes at_ need → need ∉ right

/-- Every blocked node of a report names the needs that were lost once the turn that blocked it
was over. -/
def NamesBlockers (nodes : List GraphNode) (trace : List (Call ε T × Turn ε T))
    (report : GraphReport ε T) : Prop :=
  ∀ (at_ : Nat) (name : String) (names : List String),
    report.outcomes[at_]? = some (name, .blocked names) →
      ∃ taken ∈ trace, taken.1.run.outcomes.get at_ = none ∧
        (taken.1.act taken.2).run.outcomes.get at_ = some (.blocked names) ∧
        Blames nodes (taken.1.act taken.2).run at_ names

section Names

theorem names_lt_of_le {names : List String} (hsorted : names.Pairwise (· ≤ ·))
    (hnodup : names.Nodup) : names.Pairwise (· < ·) := by
  refine (hsorted.and hnodup).imp ?_
  rintro first second ⟨hle, hne⟩
  exact lt_of_le_of_ne hle hne

theorem Blames.unique {others : List GraphNode} {run other : Scheduler ε T} {at_ place : Nat}
    {names found : List String} (h : Blames nodes run at_ names) (hother : Blames others other place found)
    (hsame : ∀ name, (∃ need needed, Needs nodes at_ need ∧ nodes[need]? = some needed ∧
        needed.name = name ∧ run.lost need = true) ↔
      ∃ need needed, Needs others place need ∧ others[need]? = some needed ∧
        needed.name = name ∧ other.lost need = true) : names = found := by
  apply List.Perm.eq_of_pairwise ?_ h.sorted hother.sorted
  · apply (List.perm_ext_iff_of_nodup (h.sorted.imp ne_of_lt) (hother.sorted.imp ne_of_lt)).mpr
    intro name
    rw [h.mem_iff, hother.mem_iff]
    exact hsame name
  · exact fun first second _ _ hless hmore => absurd (lt_trans hless hmore) (lt_irrefl first)

end Names

section Passes

variable {recorded run : Scheduler ε T} {reached : List Nat} {at_ : Nat}

/-- The needs that kept a node from running, where those behind it were not lost yet. -/
def keptBefore (recorded : Scheduler ε T) (before : List Nat) (at_ : Nat) : List String :=
  (((recorded.plan.needsOf at_).filter fun need => recorded.lost need || decide (need ∈ before)).filterMap
    (recorded.plan.names[·]?)).insertionSort (· ≤ ·)

structure Passed (recorded : Scheduler ε T) (reached : List Nat) (run : Scheduler ε T) : Prop where
  plan_eq : run.plan = recorded.plan
  open_eq : ∀ at_, run.isOpen at_ = (recorded.isOpen at_ && decide (at_ ∉ reached))
  nodup : reached.Nodup
  mem_open : ∀ at_ ∈ reached, recorded.isOpen at_ = true
  kept : ∀ at_ ∉ reached, run.outcomes.get at_ = recorded.outcomes.get at_
  blocked : ∀ left at_ right, reached = left ++ at_ :: right →
    run.outcomes.get at_ = some (.blocked (keptBefore recorded left at_))

theorem Passed.refl (recorded : Scheduler ε T) : Passed recorded [] recorded where
  plan_eq := rfl
  open_eq := by simp
  nodup := List.nodup_nil
  mem_open := fun _ hmem => (by cases hmem)
  kept := fun _ _ => rfl
  blocked := fun left at_ right hcut => (by cases left <;> cases hcut)

theorem Passed.lost_eq (h : Passed recorded reached run) (need : Nat) :
    run.lost need = (recorded.lost need || decide (need ∈ reached)) := by
  unfold Scheduler.lost
  by_cases hmem : need ∈ reached
  · obtain ⟨left, right, hcut⟩ := List.append_of_mem hmem
    rw [h.blocked left need right hcut]
    simp [hmem, NodeOutcome.keepsBelow]
  · rw [h.kept need hmem]
    simp [hmem]

theorem Passed.keptBy_eq (h : Passed recorded reached run) (at_ : Nat) :
    run.keptBy at_ = keptBefore recorded reached at_ := by
  unfold Scheduler.keptBy keptBefore
  rw [h.plan_eq]
  have hlost : (fun need => (run.outcomes.get need).any NodeOutcome.keepsBelow) =
      fun need => recorded.lost need || decide (need ∈ reached) := by
    funext need
    exact h.lost_eq need
  rw [hlost]

theorem Passed.blockOne (h : Passed recorded reached run) (hopen : recorded.isOpen at_ = true)
    (hout : at_ ∉ reached) : Passed recorded (reached ++ [at_]) (run.blockOne at_) where
  plan_eq := h.plan_eq
  open_eq := by
    intro other
    rw [isOpen_blockOne, h.open_eq]
    by_cases hsame : other = at_ <;> simp [hsame]
  nodup := List.nodup_append.mpr ⟨h.nodup, List.nodup_singleton _, by
    rintro other hother last hlast rfl
    exact hout (List.mem_singleton.mp hlast ▸ hother)⟩
  mem_open := by
    intro other hmem
    rcases List.mem_append.mp hmem with hmem | hmem
    · exact h.mem_open other hmem
    · rwa [List.mem_singleton.mp hmem]
  kept := by
    intro other hother
    rw [List.mem_append, List.mem_singleton, not_or] at hother
    unfold Scheduler.blockOne
    rw [get_record, if_neg hother.2]
    exact h.kept other hother.1
  blocked := by
    intro left other right hcut
    unfold Scheduler.blockOne
    rw [get_record]
    rcases List.eq_nil_or_concat right with rfl | ⟨others, last, rfl⟩
    · obtain ⟨rfl, hlast⟩ := List.append_inj' hcut rfl
      obtain ⟨rfl, -⟩ := List.cons.inj hlast
      rw [if_pos rfl, h.keptBy_eq]
    · rw [List.concat_eq_append, ← List.cons_append, ← List.append_assoc] at hcut
      obtain ⟨rfl, -⟩ := List.append_inj' hcut rfl
      rw [if_neg]
      · exact h.blocked left other others rfl
      · rintro rfl
        exact hout (List.mem_append_right _ List.mem_cons_self)

theorem Passed.blockStack (h : Passed recorded reached run) (fuel : Nat) (stack : List Nat) :
    Passed recorded (recorded.visit fuel stack reached) (Scheduler.blockStack fuel stack run) := by
  induction fuel generalizing stack reached run with
  | zero => exact h
  | succ fuel ih =>
    cases stack with
    | nil => exact h
    | cons at_ stack =>
      rw [Scheduler.visit, Scheduler.blockStack, ← h.open_eq]
      by_cases hopen : run.isOpen at_ = true
      · rw [if_pos hopen, if_pos hopen, Plan.below, h.plan_eq]
        rw [h.open_eq, Bool.and_eq_true, decide_eq_true_eq] at hopen
        exact ih (h.blockOne hopen.1 hopen.2) _
      · rw [if_neg hopen, if_neg hopen]
        exact ih h stack

theorem Passed.blockAll (h : Passed recorded reached run) (firsts : List Nat) :
    Passed recorded
      (firsts.foldl (fun reached next => recorded.visit (recorded.edges + 1) [next] reached) reached)
      (firsts.foldl Scheduler.block run) := by
  induction firsts generalizing reached run with
  | nil => exact h
  | cons first rest ih =>
    apply ih
    have hedges : run.edges = recorded.edges := by
      unfold Scheduler.edges
      rw [h.plan_eq]
    unfold Scheduler.block
    rw [hedges]
    exact h.blockStack _ _

end Passes

section Blame

variable {recorded run : Scheduler ε T} {reached left right : List Nat} {at_ : Nat}

theorem mem_keptBefore (hp : Planned nodes plan) (hplan : recorded.plan = plan) (before : List Nat)
    (at_ : Nat) (name : String) : name ∈ keptBefore recorded before at_ ↔
      ∃ need needed, Needs nodes at_ need ∧ nodes[need]? = some needed ∧ needed.name = name ∧
        (recorded.lost need = true ∨ need ∈ before) := by
  unfold keptBefore
  rw [(List.perm_insertionSort _ _).mem_iff, List.mem_filterMap, hplan, hp.names_eq]
  constructor
  · rintro ⟨need, hmem, hname⟩
    obtain ⟨hneeds, hlost⟩ := List.mem_filter.mp hmem
    rw [List.getElem?_map] at hname
    obtain ⟨needed, hneeded, rfl⟩ := Option.map_eq_some_iff.mp hname
    rw [Bool.or_eq_true, decide_eq_true_eq] at hlost
    exact ⟨need, needed, (hp.mem_needsOf at_ need).mp hneeds, hneeded, rfl, hlost⟩
  · rintro ⟨need, needed, hneeds, hneeded, rfl, hlost⟩
    refine ⟨need, List.mem_filter.mpr ⟨(hp.mem_needsOf at_ need).mpr hneeds, ?_⟩, ?_⟩
    · rwa [Bool.or_eq_true, decide_eq_true_eq]
    · rw [List.getElem?_map, hneeded]
      rfl

theorem keptBefore_sorted (ha : Accepted nodes) (hp : Planned nodes plan)
    (hplan : recorded.plan = plan) (before : List Nat) (at_ : Nat) :
    (keptBefore recorded before at_).Pairwise (· < ·) := by
  apply names_lt_of_le (List.pairwise_insertionSort _ _)
  rw [(List.perm_insertionSort _ _).nodup_iff, hplan, hp.names_eq]
  apply List.Nodup.filterMap ?_ ((hp.needs_nodup at_).filter _)
  intro first second name hfirst hsecond
  rw [Option.mem_def] at hfirst hsecond
  have hlt := (List.getElem?_eq_some_iff.mp hfirst).1
  exact (List.getElem?_inj hlt ha.names_nodup).mp (hfirst.trans hsecond.symm)

/-- A node the pass blocks is reported as it should be exactly where none of its needs is come to
behind it. -/
theorem Passed.blames_iff (h : Passed recorded reached run) (ha : Accepted nodes)
    (hp : Planned nodes plan) (hplan : recorded.plan = plan)
    (hcut : reached = left ++ at_ :: right) :
    Blames nodes run at_ (keptBefore recorded left at_) ↔
      ∀ need, Needs nodes at_ need → need ∉ right := by
  have hunlost : ∀ need ∈ reached, recorded.lost need = false := by
    intro need hmem
    have hopen := h.mem_open need hmem
    unfold Scheduler.isOpen at hopen
    rw [Bool.and_eq_true, Option.isNone_iff_eq_none] at hopen
    unfold Scheduler.lost
    rw [hopen.1]
    rfl
  have hself : ∀ need, Needs nodes at_ need → need ≠ at_ := by
    rintro _ ⟨node, needed, hnode, hneeded, hmem⟩ rfl
    cases hnode.symm.trans hneeded
    exact ha.acyclic node.name (.single ⟨node, List.mem_of_getElem? hnode, rfl, hmem⟩)
  constructor
  · intro hblames need hneeds hright
    have hmem : need ∈ reached := by
      rw [hcut]
      exact List.mem_append_right _ (List.mem_cons_of_mem _ hright)
    obtain ⟨-, needed, -, hneeded, -⟩ := id hneeds
    have hname := (hblames.mem_iff needed.name).mpr ⟨need, needed, hneeds, hneeded, rfl, by
      rw [h.lost_eq]
      simp [hmem]⟩
    obtain ⟨other, found, -, hfound, hsame, hearlier⟩ :=
      (mem_keptBefore hp hplan left at_ needed.name).mp hname
    have hneed : other = need := by
      have hlt : other < (nodes.map GraphNode.name).length := by
        rw [List.length_map]
        exact (List.getElem?_eq_some_iff.mp hfound).1
      apply (List.getElem?_inj hlt ha.names_nodup).mp
      rw [List.getElem?_map, List.getElem?_map, hfound, hneeded, Option.map_some, Option.map_some,
        hsame]
    rw [hneed] at hearlier
    rcases hearlier with hlost | hleft
    · rw [hunlost need hmem] at hlost
      cases hlost
    · have hnodup := h.nodup
      rw [hcut, List.nodup_append] at hnodup
      exact hnodup.2.2 need hleft need (List.mem_cons_of_mem _ hright) rfl
  · intro hnone
    refine ⟨keptBefore_sorted ha hp hplan left at_, ?_⟩
    intro name
    rw [mem_keptBefore hp hplan]
    apply exists_congr
    intro need
    apply exists_congr
    intro needed
    apply and_congr_right
    intro hneeds
    rw [h.lost_eq, hcut]
    simp [hself need hneeds, hnone need hneeds]

theorem visit_congr {run other : Scheduler ε T} (hplan : run.plan = other.plan)
    (hopen : run.isOpen = other.isOpen) (fuel : Nat) (stack reached : List Nat) :
    run.visit fuel stack reached = other.visit fuel stack reached := by
  induction fuel generalizing stack reached with
  | zero => rfl
  | succ fuel ih =>
    cases stack with
    | nil => rfl
    | cons at_ stack => rw [Scheduler.visit, Scheduler.visit, hplan, hopen, ih, ih]

theorem Books.passed {started : List Nat} (h : Books nodes plan started [] [] run) {position : Nat}
    {running : Running} (hslot : run.slots.get position = some running) (error : ε) :
    ∃ recorded : Scheduler ε T, recorded.plan = plan ∧ recorded.isOpen = run.isOpen ∧
      (∀ at_, run.outcomes.get at_ ≠ none → recorded.outcomes.get at_ = run.outcomes.get at_) ∧
      (∀ at_ names, recorded.outcomes.get at_ = some (.blocked names) →
        run.outcomes.get at_ = some (.blocked names)) ∧
      Passed recorded (run.reached running.index)
        (run.pollSlot position (some (.error error))) := by
  obtain ⟨hstarted, hnone⟩ := h.placed.slot_running position running hslot
  have hclosed : run.isOpen running.index = false := by
    apply Bool.eq_false_iff.mpr
    intro hopen
    exact ((h.placed.isOpen_iff (h.placed.started_lt _ hstarted)).mp hopen).1 hstarted
  have hopen : ((run.vacate position).record running.index (.ran (.error error))).isOpen =
      run.isOpen := by
    funext at_
    by_cases hsame : at_ = running.index
    · rw [hsame, hclosed, Scheduler.isOpen, get_record, if_pos rfl]
      rfl
    · rw [Scheduler.isOpen, get_record, if_neg hsame]
      rfl
  refine ⟨(run.vacate position).record running.index (.ran (.error error)), h.plan_eq, hopen,
    ?_, ?_, ?_⟩
  · intro at_ hsome
    rw [get_record, if_neg]
    · rfl
    · rintro rfl
      exact hsome hnone
  · intro at_ names hblocked
    rw [get_record] at hblocked
    split at hblocked
    · cases hblocked
    · exact hblocked
  · have hreached : run.reached running.index = (run.plan.below running.index).foldl
        (fun reached next => ((run.vacate position).record running.index
          (.ran (.error error))).visit (run.edges + 1) [next] reached) [] := by
      unfold Scheduler.reached
      have hvisit : (fun (reached : List Nat) next => run.visit (run.edges + 1) [next] reached) =
          fun reached next => ((run.vacate position).record running.index
            (.ran (.error error))).visit (run.edges + 1) [next] reached := by
        funext reached next
        exact @visit_congr ε T run ((run.vacate position).record running.index
          (.ran (.error error))) rfl hopen.symm _ _ _
      rw [hvisit]
    rw [hreached]
    unfold Scheduler.pollSlot
    rw [hslot]
    exact (Passed.refl _).blockAll _

end Blame

section Turns

variable {call : Call ε T} {turn : Turn ε T} {at_ : Nat}

theorem Kept.outcome_kept (h : Kept nodes plan width call) (hp : Planned nodes plan)
    (henabled : call.enabled turn) {outcome : NodeOutcome ε T}
    (hsome : call.run.outcomes.get at_ = some outcome) :
    (call.act turn).run.outcomes.get at_ = some outcome := by
  rcases h.outcomes_act hp henabled with hsame | ⟨position, rest, polled, answer, -, -, hrun⟩
  · rwa [hsame]
  rw [hrun]
  cases hslot : call.run.slots.get position with
  | none => rwa [pollSlot_empty hslot]
  | some running =>
    have hapart : at_ ≠ running.index := by
      rintro rfl
      rw [(h.books.placed.slot_running position running hslot).2] at hsome
      cases hsome
    cases answer with
    | none => rwa [pollSlot_none]
    | some answer =>
      cases answer with
      | ok value =>
        rw [outcomes_pollSlot hslot, Index.get_insert, if_neg hapart]
        exact hsome
      | error error =>
        obtain ⟨recorded, -, hopen, hsame, -, hpassed⟩ := h.books.passed hslot error
        rw [hpassed.kept, hsame]
        · exact hsome
        · rw [hsome]
          exact Option.some_ne_none outcome
        · intro hmem
          have hclosed := hpassed.mem_open at_ hmem
          rw [hopen, Scheduler.isOpen, hsome] at hclosed
          cases hclosed

/-- The turn that fails a node blocks those the pass comes to, each of which is reported as it
should be exactly where none of its needs is come to behind it. -/
theorem Kept.blocks (h : Kept nodes plan width call) (ha : Accepted nodes) (hp : Planned nodes plan)
    {position polled : Nat} {rest : List Nat} {running : Running} {error : ε}
    (hphase : call.phase = .polling (position :: rest) polled)
    (hslot : call.run.slots.get position = some running) {left right : List Nat}
    (hcut : call.run.reached running.index = left ++ at_ :: right) :
    call.run.outcomes.get at_ = none ∧ ∃ names,
      (call.act (.poll (some (.error error)))).run.outcomes.get at_ = some (.blocked names) ∧
        (Blames nodes (call.act (.poll (some (.error error)))).run at_ names ↔
          ∀ need, Needs nodes at_ need → need ∉ right) := by
  obtain ⟨recorded, hplan, hopen, -, -, hpassed⟩ := h.books.passed hslot error
  have hmem : at_ ∈ call.run.reached running.index := by
    rw [hcut]
    exact List.mem_append_right _ List.mem_cons_self
  have hrun : (call.act (.poll (some (.error error)))).run =
      call.run.pollSlot position (some (.error error)) := by
    unfold Call.act
    simp only [hphase]
    rfl
  refine ⟨?_, keptBefore recorded left at_, ?_, ?_⟩
  · have hnone := hpassed.mem_open at_ hmem
    rw [hopen, Scheduler.isOpen, Bool.and_eq_true, Option.isNone_iff_eq_none] at hnone
    exact hnone.1
  · rw [hrun]
    exact hpassed.blocked left at_ right hcut
  · rw [hrun]
    exact hpassed.blames_iff ha hp hplan hcut

theorem Kept.blocked_by (h : Kept nodes plan width call) (hp : Planned nodes plan)
    (henabled : call.enabled turn) (hnone : call.run.outcomes.get at_ = none) {names : List String}
    (hblocked : (call.act turn).run.outcomes.get at_ = some (.blocked names)) :
    ∃ position rest polled running error, call.phase = .polling (position :: rest) polled ∧
      call.run.slots.get position = some running ∧ turn = .poll (some (.error error)) ∧
        at_ ∈ call.run.reached running.index := by
  rcases h.outcomes_act hp henabled with hsame | ⟨position, rest, polled, answer, hphase, rfl, hrun⟩
  · rw [hsame, hnone] at hblocked
    cases hblocked
  rw [hrun] at hblocked
  cases hslot : call.run.slots.get position with
  | none =>
    rw [pollSlot_empty hslot, hnone] at hblocked
    cases hblocked
  | some running =>
    cases answer with
    | none =>
      rw [pollSlot_none, hnone] at hblocked
      cases hblocked
    | some answer =>
      cases answer with
      | ok value =>
        rw [outcomes_pollSlot hslot, Index.get_insert, hnone] at hblocked
        split at hblocked <;> cases hblocked
      | error error =>
        refine ⟨position, rest, polled, running, error, hphase, hslot, rfl, ?_⟩
        by_contra hout
        obtain ⟨recorded, -, -, -, hback, hpassed⟩ := h.books.passed hslot error
        rw [hpassed.kept at_ hout] at hblocked
        rw [hback at_ names hblocked] at hnone
        cases hnone

end Turns

section Runs

variable {start final : Call ε T} {trace : List (Call ε T × Turn ε T)} {report : GraphReport ε T}

theorem Kept.step_of_mem (h : Kept nodes plan width start) (ha : Accepted nodes)
    (hp : Planned nodes plan) (hwidth : 0 < width) (hrun : Run Call.Step start trace final)
    {taken : Call ε T × Turn ε T} (hmem : taken ∈ trace) :
    Kept nodes plan width taken.1 ∧ taken.1.enabled taken.2 := by
  obtain ⟨before, rest, rfl⟩ := List.append_of_mem hmem
  obtain ⟨state, hbefore, hafter⟩ := hrun.split
  obtain ⟨rfl, next, ⟨henabled, -⟩, -⟩ := hafter.head
  exact ⟨hbefore.always h fun _ _ _ hnow hstep => hnow.step ha hp hwidth hstep, henabled⟩

theorem Kept.outcome_final (h : Kept nodes plan width start) (ha : Accepted nodes)
    (hp : Planned nodes plan) (hwidth : 0 < width) (hrun : Run Call.Step start trace final)
    {taken : Call ε T × Turn ε T} (hmem : taken ∈ trace) {at_ : Nat} {outcome : NodeOutcome ε T}
    (hsome : (taken.1.act taken.2).run.outcomes.get at_ = some outcome) :
    final.run.outcomes.get at_ = some outcome := by
  refine @Run.persists (Call ε T) (Turn ε T) Call.Step start final trace (Kept nodes plan width)
    (fun state => state.run.outcomes.get at_ = some outcome)
    (fun state turn => (state, turn) = taken) hrun h ?_ ?_ ?_ ⟨taken, hmem, rfl⟩
  · exact fun _ _ _ hnow hstep => hnow.step ha hp hwidth hstep
  · rintro state turn _ - rfl ⟨-, rfl⟩
    exact hsome
  · rintro state turn _ hnow hset ⟨henabled, rfl⟩
    exact hnow.outcome_kept hp henabled hset

theorem Kept.namesBlockers_iff (h : Kept nodes plan width start) (ha : Accepted nodes)
    (hp : Planned nodes plan) (hwidth : 0 < width) (hrun : Run Call.Step start trace final)
    (hopen : ∀ at_, start.run.outcomes.get at_ = none) (hdone : final.phase = .done (.ok report)) :
    NamesBlockers nodes trace report ↔ ∀ taken ∈ trace, InOrder nodes taken := by
  have hkeep : ∀ (state : Call ε T) (turn : Turn ε T) (next : Call ε T),
      Kept nodes plan width state → state.Step turn next → Kept nodes plan width next :=
    fun _ _ _ hnow hstep => hnow.step ha hp hwidth hstep
  have hfinal := hrun.always h hkeep
  obtain ⟨found, hfound, hcomplete⟩ := hfinal.answers ha hp hdone
  cases hfound
  have hentry : ∀ at_ outcome, final.run.outcomes.get at_ = some outcome →
      ∃ name, report.outcomes[at_]? = some (name, outcome) := by
    intro at_ outcome houtcome
    have hlt := hfinal.books.placed.outcome_lt at_ outcome houtcome
    obtain ⟨name, other, hother, hsame, -⟩ := hcomplete.outcome at_ hlt
    cases houtcome.symm.trans hsame
    exact ⟨name, hother⟩
  constructor
  · intro hnames taken hmem position rest polled running error hphase hslot hturn left at_ right hcut
    obtain ⟨hkept, henabled⟩ := h.step_of_mem ha hp hwidth hrun hmem
    obtain ⟨hbefore, names, hblocked, hblames⟩ := hkept.blocks ha hp hphase hslot hcut
    rw [← hturn] at hblocked hblames
    obtain ⟨name, hreported⟩ := hentry at_ _ (h.outcome_final ha hp hwidth hrun hmem hblocked)
    obtain ⟨other, hother, hnone, hlater, hright⟩ := hnames at_ name names hreported
    have hsame : other = taken := by
      apply hrun.crosses_once (I := Kept nodes plan width)
        (P := fun state => (state.run.outcomes.get at_).isSome) h hkeep ?_ hother hmem
      · simp [hnone]
      · simp [hbefore]
      · rintro _ ⟨-, rfl⟩
        exact Option.isSome_of_eq_some hlater
      · rintro _ ⟨-, rfl⟩
        exact Option.isSome_of_eq_some hblocked
      · rintro state label _ hnow hsome ⟨hcan, rfl⟩
        obtain ⟨outcome, houtcome⟩ := Option.isSome_iff_exists.mp hsome
        exact Option.isSome_of_eq_some (hnow.outcome_kept hp hcan houtcome)
    rw [hsame] at hright
    exact hblames.mp hright
  · intro horder at_ name names hreported
    have hlt : at_ < nodes.length := by
      have hlength := congrArg List.length hcomplete.names
      rw [List.length_map, List.length_map] at hlength
      rw [← hlength]
      exact (List.getElem?_eq_some_iff.mp hreported).1
    obtain ⟨other, outcome, hother, houtcome, -⟩ := hcomplete.outcome at_ hlt
    cases hreported.symm.trans hother
    obtain ⟨before, state, turn, next, after, rfl, hbefore, hstep, hafter, hnone, hsome⟩ :=
      hrun.crossing (P := fun state => (state.run.outcomes.get at_).isSome)
        (by simp [hopen]) (Option.isSome_of_eq_some houtcome)
    have hmem : (state, turn) ∈ before ++ (state, turn) :: after :=
      List.mem_append_right _ List.mem_cons_self
    obtain ⟨hkept, henabled⟩ := h.step_of_mem ha hp hwidth hrun hmem
    rw [Option.not_isSome_iff_eq_none] at hnone
    obtain ⟨-, rfl⟩ := hstep
    have hblocked : (state.act turn).run.outcomes.get at_ = some (.blocked names) := by
      obtain ⟨settled, hsettled⟩ := Option.isSome_iff_exists.mp hsome
      have hlast := h.outcome_final ha hp hwidth hrun hmem hsettled
      rw [hsettled, ← hlast, houtcome]
    obtain ⟨position, rest, polled, running, error, hphase, hslot, rfl, hreached⟩ :=
      hkept.blocked_by hp henabled hnone hblocked
    obtain ⟨left, right, hcut⟩ := List.append_of_mem hreached
    obtain ⟨-, others, hothers, hblames⟩ := hkept.blocks ha hp hphase hslot hcut
    cases hblocked.symm.trans hothers
    refine ⟨_, hmem, hnone, hblocked, hblames.mpr ?_⟩
    exact horder _ hmem position rest polled running error hphase hslot rfl left at_ right hcut

end Runs

theorem namesBlockers_iff {start final : Call ε T} {trace : List (Call ε T × Turn ε T)}
    {report : GraphReport ε T} (scope : Scope) (step : String) (limit : Option NonZero)
    (fanOut : NonZero) (h : validate nodes = .ok ())
    (hstart : runGraph ε T scope step limit fanOut nodes = .ok start)
    (hrun : Run Call.Step start trace final) (hdone : final.phase = .done (.ok report)) :
    NamesBlockers nodes trace report ↔ ∀ taken ∈ trace, InOrder nodes taken := by
  have ha := accepted_of_validate h
  by_cases hroom : scope.depth + 2 ≤ maxDepth
  · obtain ⟨plan, hp, hcall⟩ :=
      runGraph_eq ε T h scope step limit fanOut (by omega : scope.depth < maxDepth)
    cases hstart.symm.trans hcall
    have hdepth : (⟨scope.join step, scope.depth + 1⟩ : Scope).depth < maxDepth := by
      change scope.depth + 1 < maxDepth
      omega
    exact (kept_start ε T ha hp hdepth _).namesBlockers_iff ha hp
      (width_pos limit fanOut nodes.length) hrun (fun _ => rfl) hdone
  · rcases refusedDeep ε T h scope step limit fanOut (Nat.not_le.mp hroom) with hrefused | hrefused
    · rw [hstart] at hrefused
      cases hrefused
    · obtain ⟨other, hother, hall⟩ := hrefused
      cases hstart.symm.trans hother
      cases (hall trace final hrun).2 _ hdone

/-- Two reports that name the same lost needs of a node name them alike, however its graph was
declared. -/
def NamedAlike (nodes : List GraphNode) (ε T : Type) : Prop :=
  ∀ (others : List GraphNode) (run other : Scheduler ε T) (at_ place : Nat)
    (names found : List String), Blames nodes run at_ names → Blames others other place found →
      (∀ name, (∃ need needed, Needs nodes at_ need ∧ nodes[need]? = some needed ∧
          needed.name = name ∧ run.lost need = true) ↔
        ∃ need needed, Needs others place need ∧ others[need]? = some needed ∧
          needed.name = name ∧ other.lost need = true) → names = found

/-- A report names what blocked its nodes exactly where no pass of its run comes to a node before
one of its needs. -/
theorem blockers_named_iff {start final : Call ε T} {trace : List (Call ε T × Turn ε T)}
    {report : GraphReport ε T} (scope : Scope) (step : String) (limit : Option NonZero)
    (fanOut : NonZero) (h : validate nodes = .ok ())
    (hstart : runGraph ε T scope step limit fanOut nodes = .ok start)
    (hrun : Run Call.Step start trace final) (hdone : final.phase = .done (.ok report)) :
    (NamesBlockers nodes trace report ↔ ∀ taken ∈ trace, InOrder nodes taken) ∧
      NamedAlike nodes ε T := by
  refine ⟨?_, fun _ _ _ _ _ _ _ hnames hfound hsame => hnames.unique hfound hsame⟩
  exact namesBlockers_iff scope step limit fanOut h hstart hrun hdone

section Fates

variable {answer : Nat → Except ε T}

/-- A node succeeds where all it needs do and its body answers with a value. -/
inductive Succeeds (nodes : List GraphNode) (answer : Nat → Except ε T) : Nat → Prop where
  | intro {at_ : Nat} {value : T} (hneeds : ∀ need, Needs nodes at_ need → Succeeds nodes answer need)
      (hanswer : answer at_ = .ok value) : Succeeds nodes answer at_

/-- What a node comes to, read off the declaration and the answers of the bodies alone. -/
def Fated (nodes : List GraphNode) (answer : Nat → Except ε T) (at_ : Nat) :
    NodeOutcome ε T → Prop
  | .ran given => given = answer at_ ∧ ∀ need, Needs nodes at_ need → Succeeds nodes answer need
  | .blocked _ => ∃ need, Needs nodes at_ need ∧ ¬ Succeeds nodes answer need

def AnswersAs (answer : Nat → Except ε T) (call : Call ε T) (turn : Turn ε T) : Prop :=
  ∀ position rest polled running given, call.phase = .polling (position :: rest) polled →
    call.run.slots.get position = some running → turn = .poll (some given) →
      given = answer running.index

def Faithful (answer : Nat → Except ε T) (call : Call ε T) : Prop :=
  ∀ at_ given, call.run.outcomes.get at_ = some (.ran given) → given = answer at_

theorem Passed.ran {recorded run : Scheduler ε T} {reached : List Nat} {at_ : Nat}
    {given : Except ε T} (h : Passed recorded reached run)
    (hran : run.outcomes.get at_ = some (.ran given)) :
    recorded.outcomes.get at_ = some (.ran given) := by
  by_cases hmem : at_ ∈ reached
  · obtain ⟨left, right, hcut⟩ := List.append_of_mem hmem
    rw [h.blocked left at_ right hcut] at hran
    cases hran
  · rwa [h.kept at_ hmem] at hran

theorem Kept.faithful_act {call : Call ε T} {turn : Turn ε T} (h : Kept nodes plan width call)
    (hp : Planned nodes plan) (henabled : call.enabled turn) (hanswers : AnswersAs answer call turn)
    (hfaithful : Faithful answer call) : Faithful answer (call.act turn) := by
  intro at_ given hran
  rcases h.outcomes_act hp henabled with hsame | ⟨position, rest, polled, answered, hphase, rfl, hrun⟩
  · rw [hsame] at hran
    exact hfaithful at_ given hran
  rw [hrun] at hran
  cases hslot : call.run.slots.get position with
  | none =>
    rw [pollSlot_empty hslot] at hran
    exact hfaithful at_ given hran
  | some running =>
    cases answered with
    | none =>
      rw [pollSlot_none] at hran
      exact hfaithful at_ given hran
    | some answered =>
      have hsame := hanswers position rest polled running answered hphase hslot rfl
      have hrecorded : ((call.run.vacate position).record running.index (.ran answered)).outcomes.get
          at_ = some (.ran given) := by
        cases answered with
        | ok value =>
          rw [outcomes_pollSlot hslot] at hran
          exact hran
        | error error =>
          unfold Scheduler.pollSlot at hran
          rw [hslot] at hran
          exact ((Passed.refl _).blockAll _).ran hran
      rw [get_record] at hrecorded
      split at hrecorded
      · rename_i hat
        cases hrecorded
        rw [hat]
        exact hsame
      · exact hfaithful at_ given hrecorded

theorem Complete.fated {call : Call ε T} {report : GraphReport ε T}
    (hcomplete : Complete nodes call report) (ha : Accepted nodes) (hp : Planned nodes plan)
    (hfaithful : Faithful answer call) :
    ∀ at_ < nodes.length, ∃ name outcome, report.outcomes[at_]? = some (name, outcome) ∧
      Fated nodes answer at_ outcome := by
  have hok : ∀ at_ < nodes.length, call.run.ok at_ = true ↔ Succeeds nodes answer at_ := by
    obtain ⟨order, htopological, hin, hall⟩ := ha.index_order hp
    intro at_ hlt
    refine htopological.induction (P := fun at_ => call.run.ok at_ = true ↔ Succeeds nodes answer at_)
      (fun at_ hmem ih => ?_) at_ (hall at_ hlt)
    have hneeds (need : Nat) (hneed : Needs nodes at_ need) :=
      ih need ((hp.mem_needsOf at_ need).mpr hneed)
    obtain ⟨name, outcome, -, hget, hran⟩ := hcomplete.outcome at_ (hin at_ hmem)
    have hstarted := hcomplete.started_iff at_ (hin at_ hmem)
    rw [Scheduler.ok, hget]
    constructor
    · intro hsome
      cases outcome with
      | blocked names => cases hsome
      | ran given =>
        cases given with
        | error error => cases hsome
        | ok value =>
          have hmet := hstarted.mp (hran.mp rfl)
          exact .intro (fun need hneed => (hneeds need hneed).mp (hmet need hneed))
            (hfaithful at_ _ hget).symm
    · rintro ⟨hmet, hanswer⟩
      have hunblocked := hran.mpr (hstarted.mpr fun need hneed => (hneeds need hneed).mpr (hmet need hneed))
      cases outcome with
      | blocked names => cases hunblocked
      | ran given =>
        rw [hfaithful at_ _ hget, hanswer]
        rfl
  intro at_ hlt
  obtain ⟨name, outcome, hentry, hget, hran⟩ := hcomplete.outcome at_ hlt
  have hstarted := hcomplete.started_iff at_ hlt
  refine ⟨name, outcome, hentry, ?_⟩
  cases outcome with
  | ran given =>
    refine ⟨hfaithful at_ _ hget, fun need hneed => (hok need hneed.lt.2).mp ?_⟩
    exact hstarted.mp (hran.mp rfl) need hneed
  | blocked names =>
    by_contra hmet
    have hall : ∀ need, Needs nodes at_ need → call.run.ok need = true := by
      intro need hneed
      by_contra hnot
      exact hmet ⟨need, hneed, fun hsucceeds => hnot ((hok need hneed.lt.2).mpr hsucceeds)⟩
    cases hran.mpr (hstarted.mpr hall)

/-- A report depends on the declaration and on the answers of the bodies, and on nothing else: not
on the slots, the scope, or the order in which bodies are woken and answer. -/
theorem outcomes_fated {start final : Call ε T} {trace : List (Call ε T × Turn ε T)}
    {report : GraphReport ε T} (scope : Scope) (step : String) (limit : Option NonZero)
    (fanOut : NonZero) (h : validate nodes = .ok ())
    (hstart : runGraph ε T scope step limit fanOut nodes = .ok start)
    (hrun : Run Call.Step start trace final)
    (hanswers : ∀ taken ∈ trace, AnswersAs answer taken.1 taken.2)
    (hdone : final.phase = .done (.ok report)) :
    report.outcomes.map Prod.fst = nodes.map GraphNode.name ∧
      ∀ at_ < nodes.length, ∃ name outcome, report.outcomes[at_]? = some (name, outcome) ∧
        Fated nodes answer at_ outcome := by
  have ha := accepted_of_validate h
  by_cases hroom : scope.depth + 2 ≤ maxDepth
  · obtain ⟨plan, hp, hcall⟩ :=
      runGraph_eq ε T h scope step limit fanOut (by omega : scope.depth < maxDepth)
    cases hstart.symm.trans hcall
    have hdepth : (⟨scope.join step, scope.depth + 1⟩ : Scope).depth < maxDepth := by
      change scope.depth + 1 < maxDepth
      omega
    have hwidth := width_pos limit fanOut nodes.length
    obtain ⟨hkept, hfaithful⟩ := @Run.invariant _ _ _ _ _ _
      (fun call => Kept nodes plan (width limit fanOut nodes.length) call ∧ Faithful answer call)
      (AnswersAs answer) hrun ⟨kept_start ε T ha hp hdepth _, nofun⟩
      (fun call turn next hnow hanswer hstep => ⟨hnow.1.step ha hp hwidth hstep, by
        obtain ⟨henabled, rfl⟩ := hstep
        exact hnow.1.faithful_act hp henabled hanswer hnow.2⟩) hanswers
    obtain ⟨found, hfound, hcomplete⟩ := hkept.answers ha hp hdone
    cases hfound
    exact ⟨hcomplete.names, hcomplete.fated ha hp hfaithful⟩
  · rcases refusedDeep ε T h scope step limit fanOut (Nat.not_le.mp hroom) with hrefused | hrefused
    · rw [hstart] at hrefused
      cases hrefused
    · obtain ⟨other, hother, hall⟩ := hrefused
      cases hstart.symm.trans hother
      cases (hall trace final hrun).2 _ hdone

end Fates

section Diamond

def Call.can (call : Call ε T) : Turn ε T → Bool
  | .wake position => decide (position < call.run.width)
  | .nudge => true
  | .resume =>
    match call.phase with
    | .parked => call.notified
    | _ => false
  | .start =>
    match call.phase with
    | .starting _ _ => true
    | _ => false
  | .poll _ =>
    match call.phase with
    | .polling _ _ => true
    | _ => false

theorem Call.enabled_of_can {call : Call ε T} {turn : Turn ε T} (h : call.can turn = true) :
    call.enabled turn := by
  cases turn with
  | wake position =>
    have hlt : position < call.run.width := of_decide_eq_true h
    exact hlt
  | nudge => trivial
  | resume =>
    unfold Call.can at h
    cases hphase : call.phase with
    | parked =>
      rw [hphase] at h
      exact ⟨hphase, h⟩
    | starting | polling | done =>
      rw [hphase] at h
      cases h
  | start =>
    unfold Call.can at h
    cases hphase : call.phase with
    | starting polled names => exact ⟨polled, names, hphase⟩
    | parked | polling | done =>
      rw [hphase] at h
      cases h
  | poll answer =>
    unfold Call.can at h
    cases hphase : call.phase with
    | polling rest polled => exact ⟨rest, polled, hphase⟩
    | parked | starting | done =>
      rw [hphase] at h
      cases h

def Call.canAll (call : Call ε T) : List (Turn ε T) → Bool
  | [] => true
  | turn :: turns => call.can turn && (call.act turn).canAll turns

theorem Call.run_of_canAll {call : Call ε T} {turns : List (Turn ε T)}
    (h : call.canAll turns = true) :
    Run Call.Step call (traceOf Call.act call turns) (turns.foldl Call.act call) := by
  apply Run.ofEnabled
  induction turns generalizing call with
  | nil =>
    intro taken hmem
    cases hmem
  | cons turn turns ih =>
    rw [Call.canAll, Bool.and_eq_true] at h
    intro taken hmem
    rcases List.mem_cons.mp hmem with rfl | hmem
    · exact ⟨Call.enabled_of_can h.1, rfl⟩
    · exact ih h.2 taken hmem

def diamond : List GraphNode :=
  [.new "build" [], .new "lint" ["build"], .new "test" ["build"], .new "publish" ["lint", "test"]]

def buildFails : List (Turn String Nat) :=
  [.resume, .start, .start, .poll (some (.error "no compiler")), .start]

def ofDiamond {α : Type} (shown : Call String Nat → α) : Option α :=
  (runGraph String Nat ⟨"", 0⟩ "lanes" none ⟨8, Nat.succ_pos 7⟩ diamond).toOption.map shown

def Phase.reported : Phase ε T → Option (GraphReport ε T)
  | .done (.ok report) => some report
  | _ => none

theorem Phase.eq_done {phase : Phase ε T} {report : GraphReport ε T}
    (h : phase.reported = some report) : phase = .done (.ok report) := by
  cases phase with
  | done answer =>
    cases answer with
    | ok found =>
      cases h
      rfl
    | error error => cases h
  | parked | starting | polling => cases h

def GraphReport.blockedBy (report : GraphReport ε T) (at_ : Nat) : Option (String × List String) :=
  match report.outcomes[at_]? with
  | some (name, .blocked names) => some (name, names)
  | _ => none

theorem GraphReport.entry_of_blockedBy {report : GraphReport ε T} {at_ : Nat} {name : String}
    {names : List String} (h : report.blockedBy at_ = some (name, names)) :
    report.outcomes[at_]? = some (name, .blocked names) := by
  unfold GraphReport.blockedBy at h
  split at h
  · rename_i hentry
    cases h
    exact hentry
  · cases h

theorem Call.phase_of_rest {call : Call ε T} {rest : List Nat} (hrest : rest ≠ [])
    (h : call.rest = rest) : ∃ polled, call.phase = .polling rest polled := by
  unfold Call.rest at h
  split at h
  · rename_i others polled hphase
    cases h
    exact ⟨polled, hphase⟩
  · exact absurd h.symm hrest

theorem diamond_run : ∃ start final report,
    runGraph String Nat ⟨"", 0⟩ "lanes" none ⟨8, by decide⟩ diamond = .ok start ∧
      Run Call.Step start (traceOf Call.act start buildFails) final ∧
      final.phase = .done (.ok report) ∧ report.blockedBy 3 = some ("publish", ["lint"]) := by
  have hcan : ofDiamond (fun start => start.canAll buildFails) = some true := by decide +kernel
  have hdone : ofDiamond (fun start => ((buildFails.foldl Call.act start).phase.reported).map
      (GraphReport.blockedBy · 3)) = some (some (some ("publish", ["lint"]))) := by
    decide +kernel
  unfold ofDiamond at hcan hdone
  cases hstart : runGraph String Nat ⟨"", 0⟩ "lanes" none ⟨8, by decide⟩ diamond with
  | error refusal =>
    rw [hstart] at hcan
    cases hcan
  | ok start =>
    rw [hstart] at hcan hdone
    obtain ⟨report, hreport, hblocked⟩ := Option.map_eq_some_iff.mp (Option.some.inj hdone)
    exact ⟨start, _, report, rfl, Call.run_of_canAll (Option.some.inj hcan),
      Phase.eq_done hreport, hblocked⟩

/-- The build of the diamond fails: what publishes is reported to wait for the lint and not for the
test, which is blocked too. -/
theorem publish_misses_test : ∃ start trace final report, validate diamond = .ok () ∧
    runGraph String Nat ⟨"", 0⟩ "lanes" none ⟨8, by decide⟩ diamond = .ok start ∧
      Run Call.Step start trace final ∧ final.phase = .done (.ok report) ∧
      report.outcomes[3]? = some ("publish", .blocked ["lint"]) ∧
      ¬ NamesBlockers diamond trace report := by
  obtain ⟨start, final, report, hstart, hrun, hdone, hblocked⟩ := diamond_run
  have hvalid : validate diamond = .ok () := by decide +kernel
  refine ⟨start, _, final, report, hvalid, hstart, hrun, hdone,
    GraphReport.entry_of_blockedBy hblocked, ?_⟩
  rw [namesBlockers_iff ⟨"", 0⟩ "lanes" none ⟨8, by decide⟩ hvalid hstart hrun hdone]
  intro horder
  have hfailing : ofDiamond (fun start =>
      let call := (buildFails.take 3).foldl Call.act start
      (call.rest, (call.run.slots.get 0).map Running.index, call.run.reached 0)) =
        some ([0], some 0, [1, 3, 2]) := by
    decide +kernel
  unfold ofDiamond at hfailing
  rw [hstart] at hfailing
  obtain ⟨hrest, hslot, hreached⟩ := by
    simpa only [Prod.mk.injEq] using Option.some.inj hfailing
  obtain ⟨running, hrunning, hindex⟩ := Option.map_eq_some_iff.mp hslot
  obtain ⟨polled, hphase⟩ := Call.phase_of_rest (List.cons_ne_nil _ _) hrest
  have hmem : ((buildFails.take 3).foldl Call.act start,
      (.poll (some (.error "no compiler")) : Turn String Nat)) ∈
        traceOf Call.act start buildFails :=
    .tail _ (.tail _ (.tail _ (.head _)))
  rw [← hindex] at hreached
  -- the pass comes to the last node before the second of its needs
  exact horder _ hmem 0 [] polled running "no compiler" hphase hrunning rfl [1] 3 [2] hreached 2
    ⟨_, _, rfl, rfl, List.mem_cons_of_mem _ (List.mem_singleton_self _)⟩
    (List.mem_singleton_self 2)

theorem blockers_named_diamond : ∃ start trace final report,
    runGraph String Nat ⟨"", 0⟩ "lanes" none ⟨8, by decide⟩ diamond = .ok start ∧
      Run Call.Step start trace final ∧ final.phase = .done (.ok report) ∧
      (NamesBlockers diamond trace report ↔ ∀ taken ∈ trace, InOrder diamond taken) ∧
        NamedAlike diamond String Nat := by
  obtain ⟨start, final, report, hstart, hrun, hdone, -⟩ := diamond_run
  exact ⟨start, _, final, report, hstart, hrun, hdone,
    blockers_named_iff ⟨"", 0⟩ "lanes" none ⟨8, by decide⟩ (by decide +kernel) hstart hrun hdone⟩

theorem outcomes_fated_diamond : ∃ start trace final report,
    runGraph String Nat ⟨"", 0⟩ "lanes" none ⟨8, by decide⟩ diamond = .ok start ∧
      Run Call.Step start trace final ∧ final.phase = .done (.ok report) ∧
      report.outcomes.map Prod.fst = diamond.map GraphNode.name ∧
      ∀ at_ < diamond.length, ∃ name outcome, report.outcomes[at_]? = some (name, outcome) ∧
        Fated diamond (fun _ => (.error "no compiler" : Except String Nat)) at_ outcome := by
  obtain ⟨start, final, report, hstart, hrun, hdone, -⟩ := diamond_run
  refine ⟨start, _, final, report, hstart, hrun, hdone, outcomes_fated ⟨"", 0⟩ "lanes" none
    ⟨8, by decide⟩ (by decide +kernel) hstart hrun (fun taken hmem => ?_) hdone⟩
  rintro _ _ _ _ given - - hturn
  have hmem := mem_traceOf hmem
  rw [hturn] at hmem
  simpa [buildFails] using hmem

end Diamond

end LogicalWorks.Graph
