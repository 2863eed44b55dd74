import LogicalWorks.Graph.Accepted
import LogicalWorks.Graph.Run
import Mathlib.Algebra.BigOperators.Group.List.Basic

/-! The scheduler's books agree with each other: the slots with what was started, the counters and
the ready set with what succeeded, the blocked nodes with what failed. -/
namespace LogicalWorks.Graph

variable {ε T : Type} {nodes : List GraphNode} {started : List Nat} {run : Scheduler ε T}

namespace Scheduler

def ok (run : Scheduler ε T) (at_ : Nat) : Bool := (run.outcomes.get at_).any NodeOutcome.isOk

def blocked (run : Scheduler ε T) (at_ : Nat) : Bool :=
  (run.outcomes.get at_).any NodeOutcome.isBlocked

def lost (run : Scheduler ε T) (at_ : Nat) : Bool :=
  (run.outcomes.get at_).any NodeOutcome.keepsBelow

theorem ok_or_lost {at_ : Nat} {outcome : NodeOutcome ε T}
    (h : run.outcomes.get at_ = some outcome) : run.ok at_ = true ∨ run.lost at_ = true := by
  unfold ok lost
  rw [h]
  cases outcome with
  | ran answer => cases answer with
      | ok => exact .inl rfl
      | error => exact .inr rfl
  | blocked => exact .inr rfl

theorem not_lost_of_ok {at_ : Nat} (h : run.ok at_ = true) : run.lost at_ = false := by
  unfold ok at h
  unfold lost
  cases hget : run.outcomes.get at_ with
  | none => rfl
  | some outcome =>
    rw [hget] at h
    cases outcome with
    | ran answer => cases answer with
        | ok => rfl
        | error => cases h
    | blocked => cases h

end Scheduler

structure Placed (nodes : List GraphNode) (started : List Nat) (run : Scheduler ε T) : Prop where
  open_eq : ∀ at_ node, run.nodes.get at_ = some node → nodes[at_]? = some node
  open_iff : ∀ at_ < nodes.length,
    (run.nodes.get at_).isSome ↔ at_ ∉ started ∧ run.outcomes.get at_ = none
  outcome_lt : ∀ at_ outcome, run.outcomes.get at_ = some outcome → at_ < nodes.length
  blocked_iff : ∀ at_ outcome, run.outcomes.get at_ = some outcome →
    (outcome.isBlocked = true ↔ at_ ∉ started)
  started_nodup : started.Nodup
  started_lt : ∀ at_ ∈ started, at_ < nodes.length
  needs_ok : ∀ at_ ∈ started, ∀ need, Needs nodes at_ need → run.ok need = true
  slot_lt : ∀ position running, run.slots.get position = some running → position < run.width
  slot_running : ∀ position running, run.slots.get position = some running →
    running.index ∈ started ∧ run.outcomes.get running.index = none
  slot_inj : ∀ first second left right, run.slots.get first = some left →
    run.slots.get second = some right → left.index = right.index → first = second
  in_flight : ∀ at_ ∈ started, run.outcomes.get at_ = none →
    ∃ position running, run.slots.get position = some running ∧ running.index = at_
  free_nodup : run.free.Nodup
  mem_free : ∀ position, position ∈ run.free ↔
    position < run.width ∧ run.slots.get position = none

structure Counted (nodes : List GraphNode) (plan : Plan) (unreleased : List Nat)
    (run : Scheduler ε T) : Prop where
  counted : ∀ at_ < nodes.length, ∃ count, run.unmet.get at_ = some count ∧
    count + ((plan.needsOf at_).filter run.ok).length =
      (plan.needsOf at_).length + if at_ ∈ unreleased then 1 else 0
  ready_iff : ∀ height at_, (height, at_) ∈ run.ready ↔ height = plan.heightOf at_ ∧
    at_ < nodes.length ∧ run.isOpen at_ = true ∧ run.unmet.get at_ = some 0
  sorted : run.ready.Pairwise TallerFirst
  nodup : run.ready.Nodup

structure Blocking (nodes : List GraphNode) (pending : List Nat) (run : Scheduler ε T) : Prop where
  blocks : ∀ at_ need, Needs nodes at_ need → run.lost need = true →
    run.blocked at_ = true ∨ at_ ∈ pending
  blocked_lost : ∀ at_, run.blocked at_ = true → ∃ need, Needs nodes at_ need ∧ run.lost need = true
  pending_lost : ∀ at_ ∈ pending, ∃ need, Needs nodes at_ need ∧ run.lost need = true

structure Books (nodes : List GraphNode) (plan : Plan) (started unreleased pending : List Nat)
    (run : Scheduler ε T) : Prop where
  plan_eq : run.plan = plan
  placed : Placed nodes started run
  counted : Counted nodes plan unreleased run
  blocking : Blocking nodes pending run

instance : Std.Total TallerFirst := ⟨fun left right => by unfold TallerFirst; omega⟩

instance : IsTrans (Nat × Nat) TallerFirst :=
  ⟨fun first second third hfirst hsecond => by unfold TallerFirst at *; omega⟩

theorem mem_insertReady {ready : List (Nat × Nat)} (entry other : Nat × Nat) :
    other ∈ insertReady ready entry ↔ other = entry ∨ other ∈ ready := by
  unfold insertReady
  split
  · rename_i hmem
    exact ⟨.inr, fun h => h.elim (fun heq => heq ▸ hmem) id⟩
  · exact List.mem_orderedInsert _

theorem insertReady_sorted {ready : List (Nat × Nat)} (entry : Nat × Nat)
    (h : ready.Pairwise TallerFirst) : (insertReady ready entry).Pairwise TallerFirst := by
  unfold insertReady
  split
  · exact h
  · exact h.orderedInsert entry ready

theorem insertReady_nodup {ready : List (Nat × Nat)} (entry : Nat × Nat) (h : ready.Nodup) :
    (insertReady ready entry).Nodup := by
  unfold insertReady
  split
  · exact h
  · rename_i hmem
    exact (List.perm_orderedInsert _ _ _).nodup_iff.mpr (List.nodup_cons.mpr ⟨hmem, h⟩)

namespace Placed

theorem isOpen_iff (h : Placed nodes started run) {at_ : Nat} (hlt : at_ < nodes.length) :
    run.isOpen at_ = true ↔ at_ ∉ started ∧ run.outcomes.get at_ = none := by
  unfold Scheduler.isOpen
  rw [Bool.and_eq_true, h.open_iff at_ hlt, Option.isNone_iff_eq_none]
  exact ⟨fun hopen => hopen.2, fun hopen => ⟨hopen.2, hopen⟩⟩

theorem blocked_of_outcome (h : Placed nodes started run) {at_ : Nat} (hnot : at_ ∉ started)
    {outcome : NodeOutcome ε T} (hget : run.outcomes.get at_ = some outcome) :
    run.blocked at_ = true := by
  unfold Scheduler.blocked
  rw [hget]
  exact (h.blocked_iff at_ outcome hget).mpr hnot

theorem unstarted_of_lost (h : Placed nodes started run) {at_ need : Nat}
    (hneed : Needs nodes at_ need) (hlost : run.lost need = true) : at_ ∉ started := by
  intro hstarted
  have hok := h.needs_ok at_ hstarted need hneed
  rw [Scheduler.not_lost_of_ok hok] at hlost
  cases hlost

end Placed

section Operations

variable {plan : Plan} {unreleased pending : List Nat} {at_ next : Nat}

theorem get_record (at_ other : Nat) (outcome : NodeOutcome ε T) :
    (run.record at_ outcome).outcomes.get other =
      if other = at_ then some outcome else run.outcomes.get other :=
  Index.get_insert _ _ _ _

theorem any_record {at_ : Nat} {outcome : NodeOutcome ε T} (ask : NodeOutcome ε T → Bool)
    (hnone : run.outcomes.get at_ = none) (other : Nat) :
    ((run.record at_ outcome).outcomes.get other).any ask =
      ((run.outcomes.get other).any ask || (decide (other = at_) && ask outcome)) := by
  rw [get_record]
  by_cases heq : other = at_
  · subst heq
    simp [hnone]
  · simp [heq]

theorem length_filter_or {items : List Nat} {keep : Nat → Bool} {item : Nat} (h : items.Nodup)
    (hitem : keep item = false) :
    (items.filter fun other => keep other || decide (other = item)).length =
      (items.filter keep).length + if item ∈ items then 1 else 0 := by
  induction items with
  | nil => rfl
  | cons first rest ih =>
    obtain ⟨hfirst, hrest⟩ := List.nodup_cons.mp h
    have ih := ih hrest
    by_cases heq : first = item
    · subst heq
      rw [if_neg hfirst] at ih
      simp [hitem, ih]
    · have hne : item ≠ first := fun h => heq h.symm
      cases hkeep : keep first <;> simp [hkeep, heq, hne, ih]
      omega

theorem Counted.record_ok (h : Counted nodes plan [] run) (hp : Planned nodes plan)
    {index : Nat} (hlt : index < nodes.length) (hnone : run.outcomes.get index = none)
    (hclosed : run.isOpen index = false) (value : T) :
    Counted nodes plan (plan.below index) (run.record index (.ran (.ok value))) where
  counted := by
    intro at_ hat
    obtain ⟨count, hget, hcount⟩ := h.counted at_ hat
    refine ⟨count, hget, ?_⟩
    have hok : (run.record index (.ran (.ok value))).ok =
        fun other => run.ok other || decide (other = index) := by
      funext other
      exact (any_record _ hnone other).trans (by rw [NodeOutcome.isOk, Bool.and_true]; rfl)
    have hfalse : run.ok index = false := by
      unfold Scheduler.ok
      rw [hnone]
      rfl
    rw [hok, length_filter_or (hp.needs_nodup at_) hfalse]
    have hiff : index ∈ plan.needsOf at_ ↔ at_ ∈ plan.below index := by
      rw [hp.mem_below hlt, hp.mem_needsOf]
    rw [if_neg List.not_mem_nil] at hcount
    simp only [hiff]
    omega
  ready_iff := by
    intro height at_
    have hopen : (run.record index (.ran (.ok value))).isOpen at_ = run.isOpen at_ := by
      by_cases heq : at_ = index
      · subst heq
        rw [hclosed, Scheduler.isOpen, get_record, if_pos rfl]
        rfl
      · rw [Scheduler.isOpen, get_record, if_neg heq]
        rfl
    rw [hopen]
    exact h.ready_iff height at_
  sorted := h.sorted
  nodup := h.nodup

/-- The counters stay right where no more succeeds and no node without needs left is closed. -/
theorem Counted.settle {after : Scheduler ε T} (h : Counted nodes plan unreleased run)
    (hunmet : after.unmet = run.unmet) (hready : after.ready = run.ready)
    (hok : after.ok = run.ok) (hopen : ∀ at_ < nodes.length, run.unmet.get at_ = some 0 →
      after.isOpen at_ = run.isOpen at_) : Counted nodes plan unreleased after where
  counted := by
    rw [hunmet, hok]
    exact h.counted
  ready_iff := by
    intro height at_
    rw [hready, hunmet, h.ready_iff]
    constructor
    · rintro ⟨heq, hlt, hin, hzero⟩
      exact ⟨heq, hlt, (hopen at_ hlt hzero).trans hin, hzero⟩
    · rintro ⟨heq, hlt, hin, hzero⟩
      exact ⟨heq, hlt, (hopen at_ hlt hzero).symm.trans hin, hzero⟩
  sorted := hready ▸ h.sorted
  nodup := hready ▸ h.nodup

theorem ok_record_lost {at_ : Nat} {outcome : NodeOutcome ε T}
    (hnone : run.outcomes.get at_ = none) (hlost : outcome.isOk = false) :
    (run.record at_ outcome).ok = run.ok := by
  funext other
  refine (any_record _ hnone other).trans ?_
  rw [hlost, Bool.and_false, Bool.or_false]
  rfl

theorem lost_record {at_ : Nat} {outcome : NodeOutcome ε T}
    (hnone : run.outcomes.get at_ = none) (other : Nat) :
    (run.record at_ outcome).lost other = true ↔
      run.lost other = true ∨ other = at_ ∧ outcome.keepsBelow = true := by
  unfold Scheduler.lost
  rw [any_record _ hnone, Bool.or_eq_true, Bool.and_eq_true, decide_eq_true_eq]

theorem blocked_record {at_ : Nat} {outcome : NodeOutcome ε T}
    (hnone : run.outcomes.get at_ = none) (other : Nat) :
    (run.record at_ outcome).blocked other = true ↔
      run.blocked other = true ∨ other = at_ ∧ outcome.isBlocked = true := by
  unfold Scheduler.blocked
  rw [any_record _ hnone, Bool.or_eq_true, Bool.and_eq_true, decide_eq_true_eq]

theorem Blocking.record_ok (h : Blocking nodes [] run) {index : Nat}
    (hnone : run.outcomes.get index = none) (value : T) :
    Blocking nodes [] (run.record index (.ran (.ok value))) where
  blocks := by
    intro at_ need hneed hlost
    rw [lost_record hnone] at hlost
    rw [blocked_record hnone]
    rcases hlost with hlost | ⟨-, hlost⟩
    · exact (h.blocks at_ need hneed hlost).imp_left .inl
    · cases hlost
  blocked_lost := by
    intro at_ hblocked
    rw [blocked_record hnone] at hblocked
    rcases hblocked with hblocked | ⟨-, hblocked⟩
    · obtain ⟨need, hneed, hlost⟩ := h.blocked_lost at_ hblocked
      exact ⟨need, hneed, (lost_record hnone need).mpr (.inl hlost)⟩
    · cases hblocked
  pending_lost := fun at_ hmem => (by cases hmem)

theorem Blocking.record_lost (h : Blocking nodes pending run) {at_ : Nat} {others : List Nat}
    {outcome : NodeOutcome ε T} (hnone : run.outcomes.get at_ = none)
    (hlost : outcome.keepsBelow = true)
    (hpending : ∀ other ∈ pending, other ∈ others ∨ other = at_ ∧ outcome.isBlocked = true)
    (hothers : ∀ other ∈ others, other ∈ pending ∨ Needs nodes other at_)
    (hbelow : ∀ other, Needs nodes other at_ → other ∈ others)
    (hblocked : outcome.isBlocked = true → at_ ∈ pending) :
    Blocking nodes others (run.record at_ outcome) where
  blocks := by
    intro other need hneed hnow
    rw [lost_record hnone] at hnow
    rw [blocked_record hnone]
    rcases hnow with hnow | ⟨rfl, -⟩
    · rcases h.blocks other need hneed hnow with hearlier | hmem
      · exact .inl (.inl hearlier)
      · rcases hpending other hmem with hmem | hat
        · exact .inr hmem
        · exact .inl (.inr hat)
    · exact .inr (hbelow other hneed)
  blocked_lost := by
    intro other hnow
    rw [blocked_record hnone] at hnow
    have hbefore : ∃ need, Needs nodes other need ∧ run.lost need = true := by
      rcases hnow with hnow | ⟨rfl, hnow⟩
      · exact h.blocked_lost other hnow
      · exact h.pending_lost other (hblocked hnow)
    obtain ⟨need, hneed, hneedLost⟩ := hbefore
    exact ⟨need, hneed, (lost_record hnone need).mpr (.inl hneedLost)⟩
  pending_lost := by
    intro other hmem
    rcases hothers other hmem with hmem | hneed
    · obtain ⟨need, hneed, hneedLost⟩ := h.pending_lost other hmem
      exact ⟨need, hneed, (lost_record hnone need).mpr (.inl hneedLost)⟩
    · exact ⟨at_, hneed, (lost_record hnone at_).mpr (.inr ⟨rfl, hlost⟩)⟩

theorem Placed.record (h : Placed nodes started run) {position : Nat} {running : Running}
    (hslot : run.slots.get position = some running) (answer : Except ε T) :
    Placed nodes started ((run.vacate position).record running.index (.ran answer)) := by
  obtain ⟨hstarted, hnone⟩ := h.slot_running position running hslot
  have hfree : position ∉ run.free := by
    rw [h.mem_free, hslot]
    rintro ⟨-, hout⟩
    cases hout
  have hapart {other : Nat} {left : Running} (hother : run.slots.get other = some left)
      (hne : other ≠ position) : left.index ≠ running.index := fun heq =>
    hne (h.slot_inj other position left running hother hslot heq)
  refine ⟨h.open_eq, ?_, ?_, ?_, h.started_nodup, h.started_lt, ?_, ?_, ?_, ?_, ?_, ?_, ?_⟩
  · intro at_ hlt
    change (run.nodes.get at_).isSome ↔ _
    rw [h.open_iff at_ hlt, get_record]
    by_cases heq : at_ = running.index
    · subst heq
      simp [hstarted]
    · rw [if_neg heq]
      rfl
  · intro at_ outcome hget
    rw [get_record] at hget
    split at hget
    · rename_i heq
      exact heq ▸ h.started_lt _ hstarted
    · exact h.outcome_lt at_ outcome hget
  · intro at_ outcome hget
    rw [get_record] at hget
    split at hget
    · rename_i heq
      cases hget
      rw [heq]
      simp [NodeOutcome.isBlocked, hstarted]
    · exact h.blocked_iff at_ outcome hget
  · intro at_ hmem need hneed
    have hok := h.needs_ok at_ hmem need hneed
    refine (any_record _ hnone need).trans ?_
    rw [Bool.or_eq_true]
    exact .inl hok
  · intro other left hother
    rw [Scheduler.record, Scheduler.vacate, Index.get_erase] at hother
    split at hother
    · cases hother
    · exact h.slot_lt other left hother
  · intro other left hother
    rw [Scheduler.record, Scheduler.vacate, Index.get_erase] at hother
    split at hother
    · cases hother
    · rename_i hne
      rw [get_record, if_neg (hapart hother hne)]
      exact h.slot_running other left hother
  · intro first second left right hleft hright
    rw [Scheduler.record, Scheduler.vacate, Index.get_erase] at hleft hright
    split at hleft
    · cases hleft
    split at hright
    · cases hright
    exact h.slot_inj first second left right hleft hright
  · intro at_ hmem hget
    rw [get_record] at hget
    split at hget
    · cases hget
    rename_i hne
    obtain ⟨other, left, hother, hindex⟩ := h.in_flight at_ hmem hget
    refine ⟨other, left, ?_, hindex⟩
    rw [Scheduler.record, Scheduler.vacate, Index.get_erase, if_neg]
    · exact hother
    · rintro rfl
      cases hslot.symm.trans hother
      exact hne hindex.symm
  · exact List.nodup_cons.mpr ⟨hfree, h.free_nodup⟩
  · intro other
    rw [Scheduler.record, Scheduler.vacate, Index.get_erase, List.mem_cons, h.mem_free]
    by_cases heq : other = position
    · subst heq
      simp [h.slot_lt other running hslot]
    · rw [if_neg heq]
      exact ⟨fun hor => hor.resolve_left heq, .inr⟩

theorem ok_blockOne (hnone : run.outcomes.get at_ = none) : (run.blockOne at_).ok = run.ok := by
  have hsame : Scheduler.ok { run with nodes := run.nodes.erase at_ } = run.ok := rfl
  rw [← hsame]
  exact ok_record_lost hnone rfl

theorem Placed.blockOne (h : Placed nodes started run) {at_ : Nat} (hlt : at_ < nodes.length)
    (hopen : run.isOpen at_ = true) : Placed nodes started (run.blockOne at_) := by
  obtain ⟨hnot, hnone⟩ := (h.isOpen_iff hlt).mp hopen
  refine ⟨?_, ?_, ?_, ?_, h.started_nodup, h.started_lt, ?_, h.slot_lt, ?_, h.slot_inj, ?_,
    h.free_nodup, h.mem_free⟩
  · intro other node hget
    rw [Scheduler.blockOne, Scheduler.record, Index.get_erase] at hget
    split at hget
    · cases hget
    · exact h.open_eq other node hget
  · intro other hother
    rw [Scheduler.blockOne, get_record]
    change ((run.nodes.erase at_).get other).isSome ↔ _
    rw [Index.get_erase]
    by_cases heq : other = at_
    · simp [heq]
    · rw [if_neg heq, if_neg heq]
      exact h.open_iff other hother
  · intro other outcome hget
    rw [Scheduler.blockOne, get_record] at hget
    split at hget
    · rename_i heq
      exact heq ▸ hlt
    · exact h.outcome_lt other outcome hget
  · intro other outcome hget
    rw [Scheduler.blockOne, get_record] at hget
    split at hget
    · rename_i heq
      cases hget
      rw [heq]
      simp [NodeOutcome.isBlocked, hnot]
    · exact h.blocked_iff other outcome hget
  · intro other hmem need hneed
    rw [ok_blockOne hnone]
    exact h.needs_ok other hmem need hneed
  · intro position running hslot
    obtain ⟨hstarted, hget⟩ := h.slot_running position running hslot
    rw [Scheduler.blockOne, get_record, if_neg]
    · exact ⟨hstarted, hget⟩
    · rintro rfl
      exact hnot hstarted
  · intro other hmem hget
    rw [Scheduler.blockOne, get_record] at hget
    split at hget
    · cases hget
    · exact h.in_flight other hmem hget

theorem Books.release (h : Books nodes plan started (next :: unreleased) [] run)
    (ha : Accepted nodes) (hp : Planned nodes plan) (hnext : next < nodes.length)
    (hfirst : next ∉ unreleased) : Books nodes plan started unreleased [] (run.release next) := by
  obtain ⟨count, hget, hcount⟩ := h.counted.counted next hnext
  rw [if_pos List.mem_cons_self] at hcount
  have hle := List.length_filter_le run.ok (plan.needsOf next)
  have hheight : run.plan.height.get next = some (plan.heightOf next) := by
    rw [h.plan_eq]
    exact (ha.get_height hp (List.getElem?_eq_getElem hnext)).1
  have hrelease : run.release next = { run with
      unmet := run.unmet.insert next (count - 1)
      ready := if count - 1 = 0 ∧ run.isOpen next then
        insertReady run.ready (plan.heightOf next, next) else run.ready } := by
    unfold Scheduler.release
    rw [hget, hheight]
  rw [hrelease]
  refine ⟨h.plan_eq, ?_, ⟨?_, ?_, ?_, ?_⟩, ?_⟩
  · obtain ⟨h1, h2, h3, h4, h5, h6, h7, h8, h9, h10, h11, h12, h13⟩ := h.placed
    exact ⟨h1, h2, h3, h4, h5, h6, h7, h8, h9, h10, h11, h12, h13⟩
  · intro at_ hat
    change ∃ left, (run.unmet.insert next (count - 1)).get at_ = some left ∧
      left + ((plan.needsOf at_).filter run.ok).length = _
    rw [Index.get_insert]
    by_cases heq : at_ = next
    · subst heq
      refine ⟨count - 1, if_pos rfl, ?_⟩
      rw [if_neg hfirst]
      omega
    · rw [if_neg heq]
      obtain ⟨other, hother, hlength⟩ := h.counted.counted at_ hat
      refine ⟨other, hother, ?_⟩
      simp only [List.mem_cons, heq, false_or] at hlength
      exact hlength
  · intro height at_
    have hready := h.counted.ready_iff height at_
    change _ ∈ (if _ then _ else _) ↔ _ ∧ _ ∧ run.isOpen at_ = true ∧
      (run.unmet.insert next (count - 1)).get at_ = some 0
    rw [Index.get_insert]
    by_cases heq : at_ = next
    · subst heq
      have hnot : (height, at_) ∉ run.ready := by
        rw [hready, hget]
        rintro ⟨-, -, -, hzero⟩
        cases hzero
        omega
      rw [if_pos rfl, Option.some.injEq]
      by_cases hlast : count - 1 = 0 ∧ run.isOpen at_ = true
      · rw [if_pos hlast, mem_insertReady, Prod.mk.injEq]
        simp [hnot, hlast, hnext]
      · rw [if_neg hlast]
        refine ⟨fun hmem => absurd hmem hnot, ?_⟩
        rintro ⟨-, -, hopen, hzero⟩
        exact absurd ⟨hzero, hopen⟩ hlast
    · rw [if_neg heq, ← hready]
      split
      · rw [mem_insertReady, Prod.mk.injEq]
        exact ⟨fun hor => hor.resolve_left fun hsame => heq hsame.2, .inr⟩
      · rfl
  · change List.Pairwise TallerFirst (if _ then _ else _)
    split
    · exact insertReady_sorted _ h.counted.sorted
    · exact h.counted.sorted
  · change List.Nodup (if _ then _ else _)
    split
    · exact insertReady_nodup _ h.counted.nodup
    · exact h.counted.nodup
  · obtain ⟨h1, h2, h3⟩ := h.blocking
    exact ⟨h1, h2, h3⟩

theorem Books.releaseAll (h : Books nodes plan started unreleased [] run) (ha : Accepted nodes)
    (hp : Planned nodes plan) (hlt : ∀ at_ ∈ unreleased, at_ < nodes.length)
    (hnodup : unreleased.Nodup) :
    Books nodes plan started [] [] (unreleased.foldl Scheduler.release run) := by
  induction unreleased generalizing run with
  | nil => exact h
  | cons first rest ih =>
    obtain ⟨hfirst, hrest⟩ := List.nodup_cons.mp hnodup
    refine ih (h.release ha hp (hlt first List.mem_cons_self) hfirst) ?_ hrest
    exact fun at_ hmem => hlt at_ (List.mem_cons_of_mem _ hmem)

theorem Books.unmet_eq_zero (h : Books nodes plan started [] pending run) (hp : Planned nodes plan)
    (hlt : at_ < nodes.length) :
    run.unmet.get at_ = some 0 ↔ ∀ need, Needs nodes at_ need → run.ok need = true := by
  obtain ⟨count, hget, hcount⟩ := h.counted.counted at_ hlt
  rw [if_neg List.not_mem_nil, Nat.add_zero] at hcount
  rw [hget, Option.some.injEq]
  constructor
  · rintro rfl need hneed
    rw [Nat.zero_add] at hcount
    exact List.filter_eq_self.mp (List.filter_sublist.eq_of_length hcount) need
      ((hp.mem_needsOf at_ need).mpr hneed)
  · intro hall
    rw [List.filter_eq_self.mpr fun need hmem => hall need ((hp.mem_needsOf at_ need).mp hmem)] at hcount
    omega

theorem isOpen_blockOne (other : Nat) :
    (run.blockOne at_).isOpen other = (!decide (other = at_) && run.isOpen other) := by
  unfold Scheduler.isOpen
  rw [Scheduler.blockOne, get_record]
  change (_ && ((run.nodes.erase at_).get other).isSome) = _
  rw [Index.get_erase]
  by_cases heq : other = at_ <;> simp [heq]

theorem Books.blockOne (h : Books nodes plan started [] (at_ :: pending) run)
    (hp : Planned nodes plan) (hopen : run.isOpen at_ = true) :
    Books nodes plan started [] ((plan.below at_).reverse ++ pending) (run.blockOne at_) := by
  obtain ⟨need, hneed, hlost⟩ := h.blocking.pending_lost at_ List.mem_cons_self
  have hlt := hneed.lt.1
  obtain ⟨hnot, hnone⟩ := (h.placed.isOpen_iff hlt).mp hopen
  have hbelow (other : Nat) : other ∈ (plan.below at_).reverse ++ pending ↔
      Needs nodes other at_ ∨ other ∈ pending := by
    rw [List.mem_append, List.mem_reverse, hp.mem_below hlt]
  refine ⟨h.plan_eq, h.placed.blockOne hlt hopen, ?_, ?_⟩
  · refine h.counted.settle rfl rfl (ok_blockOne hnone) fun other _ hzero => ?_
    have hne : other ≠ at_ := by
      rintro rfl
      have hok := (h.unmet_eq_zero hp hlt).mp hzero need hneed
      rw [Scheduler.not_lost_of_ok hok] at hlost
      cases hlost
    rw [isOpen_blockOne, decide_eq_false hne]
    rfl
  · have hbefore : Blocking nodes (at_ :: pending) { run with nodes := run.nodes.erase at_ } := by
      obtain ⟨h1, h2, h3⟩ := h.blocking
      exact ⟨h1, h2, h3⟩
    refine hbefore.record_lost hnone rfl ?_ ?_ ?_ fun _ => List.mem_cons_self
    · intro other hmem
      rw [hbelow]
      rcases List.mem_cons.mp hmem with heq | hmem
      · exact .inr ⟨heq, rfl⟩
      · exact .inl (.inr hmem)
    · intro other hmem
      rcases (hbelow other).mp hmem with hneeds | hmem
      · exact .inr hneeds
      · exact .inl (List.mem_cons_of_mem _ hmem)
    · exact fun other hneeds => (hbelow other).mpr (.inl hneeds)

theorem Books.skip (h : Books nodes plan started [] (at_ :: pending) run)
    (hclosed : run.isOpen at_ = false) : Books nodes plan started [] pending run := by
  obtain ⟨need, hneed, hlost⟩ := h.blocking.pending_lost at_ List.mem_cons_self
  have hnot := h.placed.unstarted_of_lost hneed hlost
  have hblocked : run.blocked at_ = true := by
    cases hget : run.outcomes.get at_ with
    | some outcome => exact h.placed.blocked_of_outcome hnot hget
    | none =>
      have hopen := (h.placed.isOpen_iff hneed.lt.1).mpr ⟨hnot, hget⟩
      rw [hclosed] at hopen
      cases hopen
  refine ⟨h.plan_eq, h.placed, h.counted, ⟨?_, h.blocking.blocked_lost, ?_⟩⟩
  · intro other otherNeed hother hotherLost
    rcases h.blocking.blocks other otherNeed hother hotherLost with hnow | hmem
    · exact .inl hnow
    · rcases List.mem_cons.mp hmem with rfl | hmem
      · exact .inl hblocked
      · exact .inr hmem
  · exact fun other hmem => h.blocking.pending_lost other (List.mem_cons_of_mem _ hmem)

def openEdges (nodes : List GraphNode) (plan : Plan) (run : Scheduler ε T) : Nat :=
  ((List.range nodes.length).map fun at_ =>
    if run.isOpen at_ then (plan.below at_).length else 0).sum

theorem openEdges_blockOne (hlt : at_ < nodes.length) (hopen : run.isOpen at_ = true) :
    (plan.below at_).length + openEdges nodes plan (run.blockOne at_) = openEdges nodes plan run := by
  have hmem := List.mem_range.mpr hlt
  unfold openEdges
  rw [← List.sum_map_erase _ hmem, ← List.sum_map_erase (l := List.range nodes.length) _ hmem]
  have hsame : ((List.range nodes.length).erase at_).map (fun other =>
        if (run.blockOne at_).isOpen other then (plan.below other).length else 0) =
      ((List.range nodes.length).erase at_).map fun other =>
        if run.isOpen other then (plan.below other).length else 0 := by
    refine List.map_congr_left fun other hother => ?_
    have hne := (List.nodup_range.mem_erase_iff.mp hother).1
    rw [isOpen_blockOne, decide_eq_false hne]
    rfl
  rw [hsame, isOpen_blockOne, decide_eq_true rfl, if_pos hopen]
  simp

theorem Books.blockStack (hp : Planned nodes plan) {fuel : Nat} {stack : List Nat}
    (h : Books nodes plan started [] (stack ++ pending) run)
    (hfuel : stack.length + openEdges nodes plan run ≤ fuel) :
    Books nodes plan started [] pending (Scheduler.blockStack fuel stack run) := by
  induction fuel generalizing stack run with
  | zero =>
    have hnil := List.eq_nil_of_length_eq_zero (by omega : stack.length = 0)
    subst hnil
    exact h
  | succ fuel ih =>
    cases stack with
    | nil => exact h
    | cons first stack =>
      rw [List.length_cons] at hfuel
      unfold Scheduler.blockStack
      split
      · rename_i hopen
        rw [h.plan_eq]
        obtain ⟨need, hneed, -⟩ := h.blocking.pending_lost first List.mem_cons_self
        have hedges := @openEdges_blockOne ε T nodes run plan first hneed.lt.1 hopen
        refine ih ?_ ?_
        · rw [List.append_assoc]
          exact h.blockOne hp hopen
        · rw [List.length_append, List.length_reverse]
          omega
      · rename_i hclosed
        refine ih (h.skip (Bool.eq_false_iff.mpr hclosed)) ?_
        omega

theorem openEdges_le (h : Books nodes plan started [] pending run) (hp : Planned nodes plan) :
    openEdges nodes plan run ≤ run.edges := by
  unfold openEdges Scheduler.edges
  rw [h.plan_eq, hp.names_eq, List.length_map]
  generalize List.range nodes.length = positions
  induction positions with
  | nil => exact Nat.le_refl _
  | cons first rest ih =>
    rw [List.map_cons, List.map_cons, List.sum_cons, List.sum_cons]
    refine Nat.add_le_add ?_ ih
    split <;> omega

theorem Books.block (h : Books nodes plan started [] (next :: pending) run)
    (hp : Planned nodes plan) : Books nodes plan started [] pending (run.block next) := by
  have hle := openEdges_le h hp
  refine Books.blockStack hp h ?_
  rw [List.length_singleton]
  omega

theorem Books.blockAll (h : Books nodes plan started [] pending run) (hp : Planned nodes plan) :
    Books nodes plan started [] [] (pending.foldl Scheduler.block run) := by
  induction pending generalizing run with
  | nil => exact h
  | cons first rest ih => exact ih (h.block hp)

theorem below_lt (hp : Planned nodes plan) {index : Nat} (hindex : index < nodes.length) :
    ∀ at_ ∈ plan.below index, at_ < nodes.length :=
  fun at_ hmem => ((hp.mem_below hindex at_).mp hmem).lt.1

theorem Books.record_ok (h : Books nodes plan started [] [] run) (hp : Planned nodes plan)
    {position : Nat} {running : Running} (hslot : run.slots.get position = some running) (value : T) :
    Books nodes plan started (plan.below running.index) []
      ((run.vacate position).record running.index (.ran (.ok value))) := by
  obtain ⟨hstarted, hnone⟩ := h.placed.slot_running position running hslot
  have hlt := h.placed.started_lt _ hstarted
  have hclosed : (run.vacate position).isOpen running.index = false := by
    refine Bool.eq_false_iff.mpr fun hopen => ?_
    exact ((h.placed.isOpen_iff hlt).mp hopen).1 hstarted
  have hcounted : Counted nodes plan [] (run.vacate position) :=
    h.counted.settle rfl rfl rfl fun _ _ _ => rfl
  have hblocking : Blocking nodes [] (run.vacate position) :=
    ⟨h.blocking.blocks, h.blocking.blocked_lost, h.blocking.pending_lost⟩
  exact ⟨h.plan_eq, h.placed.record hslot _, hcounted.record_ok hp hlt hnone hclosed value,
    hblocking.record_ok hnone value⟩

theorem Books.record_error (h : Books nodes plan started [] [] run) (hp : Planned nodes plan)
    {position : Nat} {running : Running} (hslot : run.slots.get position = some running)
    (error : ε) : Books nodes plan started [] (plan.below running.index)
      ((run.vacate position).record running.index (.ran (.error error))) := by
  obtain ⟨hstarted, hnone⟩ := h.placed.slot_running position running hslot
  have hlt := h.placed.started_lt _ hstarted
  have hblocking : Blocking nodes [] (run.vacate position) :=
    ⟨h.blocking.blocks, h.blocking.blocked_lost, h.blocking.pending_lost⟩
  have hnone' : (run.vacate position).outcomes.get running.index = none := hnone
  refine ⟨h.plan_eq, h.placed.record hslot _, ?_, hblocking.record_lost hnone' rfl ?_ ?_ ?_ ?_⟩
  · refine h.counted.settle rfl rfl (ok_record_lost hnone' rfl) fun other hother hzero => ?_
    by_cases heq : other = running.index
    · have hbefore : run.isOpen other = false := by
        refine Bool.eq_false_iff.mpr fun hopen => ?_
        exact ((h.placed.isOpen_iff hother).mp hopen).1 (heq ▸ hstarted)
      rw [hbefore, Scheduler.isOpen, get_record, if_pos heq]
      rfl
    · rw [Scheduler.isOpen, get_record, if_neg heq]
      rfl
  · intro other hmem
    cases hmem
  · exact fun other hmem => .inr ((hp.mem_below hlt other).mp hmem)
  · exact fun other hneeds => (hp.mem_below hlt other).mpr hneeds
  · exact fun hfalse => Bool.noConfusion hfalse

theorem Books.pollSlot (h : Books nodes plan started [] [] run) (ha : Accepted nodes)
    (hp : Planned nodes plan) (position : Nat) (answer : Option (Except ε T)) :
    Books nodes plan started [] [] (run.pollSlot position answer) := by
  unfold Scheduler.pollSlot
  cases hslot : run.slots.get position with
  | none => exact h
  | some running =>
    have hlt := h.placed.started_lt _ (h.placed.slot_running position running hslot).1
    have hbelow : (run.vacate position).plan.below running.index = plan.below running.index :=
      congrArg (Plan.below · running.index) h.plan_eq
    cases answer with
    | none => exact h
    | some outcome =>
      cases outcome with
      | ok value =>
        have hnodup : (plan.below running.index).Nodup := by
          rw [hp.below_eq _ hlt]
          exact hp.dependantsOf_nodup _
        change Books _ _ _ _ _ (List.foldl _ _ _)
        rw [hbelow]
        exact (h.record_ok hp hslot value).releaseAll ha hp (below_lt hp hlt) hnodup
      | error error =>
        change Books _ _ _ _ _ (List.foldl _ _ _)
        rw [hbelow]
        exact (h.record_error hp hslot error).blockAll hp

theorem Books.first_ready (h : Books nodes plan started [] [] run) (hp : Planned nodes plan)
    {height index : Nat} {ready : List (Nat × Nat)} (hready : run.ready = (height, index) :: ready) :
    index < nodes.length ∧ run.isOpen index = true ∧
      (∀ need, Needs nodes index need → run.ok need = true) ∧
      ∀ other < nodes.length, run.isOpen other = true →
        (∀ need, Needs nodes other need → run.ok need = true) →
        plan.heightOf other < plan.heightOf index ∨
          plan.heightOf other = plan.heightOf index ∧ index ≤ other := by
  obtain ⟨rfl, hlt, hopen, hzero⟩ :=
    (h.counted.ready_iff height index).mp (hready ▸ List.mem_cons_self)
  refine ⟨hlt, hopen, (h.unmet_eq_zero hp hlt).mp hzero, ?_⟩
  intro other hother hotherOpen hneeds
  have hmem := (h.counted.ready_iff (plan.heightOf other) other).mpr
    ⟨rfl, hother, hotherOpen, (h.unmet_eq_zero hp hother).mpr hneeds⟩
  rw [hready] at hmem
  rcases List.mem_cons.mp hmem with heq | hmem
  · obtain ⟨-, rfl⟩ := Prod.mk.inj heq
    exact .inr ⟨rfl, Nat.le_refl _⟩
  · have hsorted := h.counted.sorted
    rw [hready] at hsorted
    rcases List.rel_of_pairwise_cons hsorted hmem with hlower | ⟨heq, hle⟩
    · exact .inl hlower
    · exact .inr ⟨heq.symm, hle⟩

theorem Placed.start (h : Placed nodes started run) {position index : Nat} {free : List Nat}
    {ready : List (Nat × Nat)} (hlt : index < nodes.length) (hnot : index ∉ started)
    (hnone : run.outcomes.get index = none)
    (hneeds : ∀ need, Needs nodes index need → run.ok need = true)
    (hfree : run.free = position :: free) (scope : Scope) :
    Placed nodes (started ++ [index]) { run with
      free := free
      ready := ready
      nodes := run.nodes.erase index
      slots := run.slots.insert position ⟨index, scope⟩ } := by
  obtain ⟨hposition, hempty⟩ := (h.mem_free position).mp (hfree ▸ List.mem_cons_self)
  obtain ⟨hapart, hfreeNodup⟩ := List.nodup_cons.mp (hfree ▸ h.free_nodup)
  have hmem (other : Nat) : other ∈ started ++ [index] ↔ other ∈ started ∨ other = index := by
    rw [List.mem_append, List.mem_singleton]
  constructor
  case open_eq =>
    intro at_ node hget
    rw [Index.get_erase] at hget
    split at hget
    · cases hget
    · exact h.open_eq at_ node hget
  case open_iff =>
    intro at_ hat
    rw [Index.get_erase, hmem]
    by_cases heq : at_ = index
    · simp [heq]
    · rw [if_neg heq, h.open_iff at_ hat]
      simp [heq]
  case outcome_lt => exact h.outcome_lt
  case blocked_iff =>
    intro at_ outcome hget
    have hne : at_ ≠ index := by
      rintro rfl
      rw [hnone] at hget
      cases hget
    rw [h.blocked_iff at_ outcome hget, hmem]
    simp [hne]
  case started_nodup =>
    refine List.nodup_append.mpr ⟨h.started_nodup, List.nodup_singleton _, ?_⟩
    rintro first hfirst second hsecond rfl
    exact hnot (List.mem_singleton.mp hsecond ▸ hfirst)
  case started_lt =>
    intro at_ hat
    rcases (hmem at_).mp hat with hat | rfl
    · exact h.started_lt at_ hat
    · exact hlt
  case needs_ok =>
    intro at_ hat
    rcases (hmem at_).mp hat with hat | rfl
    · exact h.needs_ok at_ hat
    · exact hneeds
  case slot_lt =>
    intro other running hget
    rw [Index.get_insert] at hget
    split at hget
    · rename_i heq
      exact heq ▸ hposition
    · exact h.slot_lt other running hget
  case slot_running =>
    intro other running hget
    rw [Index.get_insert] at hget
    split at hget
    · cases hget
      exact ⟨(hmem index).mpr (.inr rfl), hnone⟩
    · obtain ⟨hrunning, hout⟩ := h.slot_running other running hget
      exact ⟨(hmem _).mpr (.inl hrunning), hout⟩
  case slot_inj =>
    have hother {other : Nat} {running : Running} (hget : run.slots.get other = some running) :
        running.index ≠ index := fun heq =>
      hnot (heq ▸ (h.slot_running other running hget).1)
    intro first second left right hleft hright hsame
    rw [Index.get_insert] at hleft hright
    split at hleft <;> split at hright
    · rename_i hfirst hsecond
      rw [hfirst, hsecond]
    · cases hleft
      exact absurd hsame.symm (hother hright)
    · cases hright
      exact absurd hsame (hother hleft)
    · exact h.slot_inj first second left right hleft hright hsame
  case in_flight =>
    intro at_ hat hget
    rcases (hmem at_).mp hat with hat | rfl
    · obtain ⟨other, running, hslot, hindex⟩ := h.in_flight at_ hat hget
      refine ⟨other, running, ?_, hindex⟩
      rw [Index.get_insert, if_neg]
      · exact hslot
      · rintro rfl
        rw [hempty] at hslot
        cases hslot
    · exact ⟨position, ⟨at_, scope⟩, Index.get_insert_self _ _ _, rfl⟩
  case free_nodup => exact hfreeNodup
  case mem_free =>
    intro other
    have hbefore := h.mem_free other
    rw [hfree, List.mem_cons] at hbefore
    rw [Index.get_insert]
    by_cases heq : other = position
    · subst heq
      simp [hapart]
    · rw [if_neg heq, ← hbefore]
      simp [heq]

theorem Counted.start (h : Counted nodes plan [] run) {position height index : Nat}
    {free : List Nat} {ready : List (Nat × Nat)} (hready : run.ready = (height, index) :: ready)
    (scope : Scope) : Counted nodes plan [] { run with
      free := free
      ready := ready
      nodes := run.nodes.erase index
      slots := run.slots.insert position ⟨index, scope⟩ } := by
  constructor
  case counted => exact h.counted
  case ready_iff =>
    intro tall at_
    have hbefore := h.ready_iff tall at_
    have hnodup := h.nodup
    rw [hready] at hbefore hnodup
    rw [List.mem_cons, Prod.mk.injEq] at hbefore
    have hnow : Scheduler.isOpen { run with
        free := free
        ready := ready
        nodes := run.nodes.erase index
        slots := run.slots.insert position ⟨index, scope⟩ } at_ =
        (!decide (at_ = index) && run.isOpen at_) := by
      unfold Scheduler.isOpen
      rw [Index.get_erase]
      by_cases heq : at_ = index <;> simp [heq]
    rw [hnow]
    by_cases heq : at_ = index
    · subst heq
      have hout : (tall, at_) ∉ ready := by
        intro hin
        obtain ⟨rfl, -⟩ := hbefore.mp (.inr hin)
        obtain ⟨rfl, -⟩ := (h.ready_iff height at_).mp (hready ▸ List.mem_cons_self)
        exact (List.nodup_cons.mp hnodup).1 hin
      simp [hout]
    · rw [decide_eq_false heq, Bool.not_false, Bool.true_and, ← hbefore]
      simp [heq]
  case sorted => exact (List.pairwise_cons.mp (hready ▸ h.sorted)).2
  case nodup => exact (List.nodup_cons.mp (hready ▸ h.nodup)).2

theorem Books.start (h : Books nodes plan started [] [] run) (hp : Planned nodes plan)
    {position height index : Nat} {free : List Nat} {ready : List (Nat × Nat)}
    (hfree : run.free = position :: free) (hready : run.ready = (height, index) :: ready)
    (scope : Scope) : Books nodes plan (started ++ [index]) [] [] { run with
      free := free
      ready := ready
      nodes := run.nodes.erase index
      slots := run.slots.insert position ⟨index, scope⟩ } := by
  obtain ⟨hlt, hopen, hneeds, -⟩ := h.first_ready hp hready
  obtain ⟨hnot, hnone⟩ := (h.placed.isOpen_iff hlt).mp hopen
  exact ⟨h.plan_eq, h.placed.start hlt hnot hnone hneeds hfree scope, h.counted.start hready scope,
    ⟨h.blocking.blocks, h.blocking.blocked_lost, h.blocking.pending_lost⟩⟩

theorem Books.settled (h : Books nodes plan started [] [] run) (ha : Accepted nodes)
    (hp : Planned nodes plan) (hready : run.ready = []) (hslots : ∀ position, run.slots.get position = none) :
    ∀ at_ < nodes.length, ∃ outcome, run.outcomes.get at_ = some outcome := by
  intro at_ hat
  refine hp.topological.induction (P := fun at_ => ∃ outcome, run.outcomes.get at_ = some outcome)
    ?_ at_ (ha.ordered hp at_ hat)
  intro node hnode hneeds
  have hlt := List.mem_range.mp (hp.sound.1.order_mem node hnode)
  rw [← Option.isSome_iff_exists, ← Option.ne_none_iff_isSome]
  intro hnone
  by_cases hstarted : node ∈ started
  · obtain ⟨position, running, hslot, -⟩ := h.placed.in_flight node hstarted hnone
    rw [hslots position] at hslot
    cases hslot
  have hopen := (h.placed.isOpen_iff hlt).mpr ⟨hstarted, hnone⟩
  have hall : ∀ need, Needs nodes node need → run.ok need = true := by
    intro need hneed
    obtain ⟨outcome, hget⟩ := hneeds need ((hp.mem_needsOf node need).mpr hneed)
    refine (Scheduler.ok_or_lost hget).resolve_right fun hlost => ?_
    rcases h.blocking.blocks node need hneed hlost with hblocked | hmem
    · unfold Scheduler.blocked at hblocked
      rw [hnone] at hblocked
      cases hblocked
    · cases hmem
  have hin := (h.counted.ready_iff _ node).mpr
    ⟨rfl, hlt, hopen, (h.unmet_eq_zero hp hlt).mpr hall⟩
  rw [hready] at hin
  cases hin

end Operations

end LogicalWorks.Graph
