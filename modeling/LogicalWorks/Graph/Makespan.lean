import LogicalWorks.Graph.Governed
import LogicalWorks.Graph.Runnable
import Mathlib.Algebra.BigOperators.Group.Finset.Piecewise
import Mathlib.Algebra.Order.BigOperators.Group.Finset

/-! How long a run takes when each body takes its time and succeeds: no slot is left free while a
node is ready, so the work and the longest chain bound the end. -/
namespace LogicalWorks.Graph

variable {ε T : Type}

structure Timed (ε T : Type) where
  call : Call ε T
  clock : Nat
  begun : Index Nat Nat

inductive Tick (ε T : Type) where
  | turn (turn : Turn ε T)
  | pass

namespace Timed

variable (duration : Nat → Nat) (values : Nat → T)

def Due (timed : Timed ε T) (position : Nat) : Prop :=
  ∃ running begun, timed.call.run.slots.get position = some running ∧
    timed.begun.get running.index = some begun ∧ begun + duration running.index ≤ timed.clock

def Answers (timed : Timed ε T) : Turn ε T → Prop
  | .poll answer => ∀ position rest polled,
      timed.call.phase = .polling (position :: rest) polled →
        (timed.Due duration position → ∃ running,
          timed.call.run.slots.get position = some running ∧
            answer = some (.ok (values running.index))) ∧
        (¬ timed.Due duration position → answer = none)
  | _ => True

/-- Time passes once the call waits and no body that took its time is still to answer. -/
structure Quiet (timed : Timed ε T) : Prop where
  parked : timed.call.phase = .parked
  unnotified : timed.call.notified = false
  running : ∀ position, ¬ timed.Due duration position

def enabled (timed : Timed ε T) : Tick ε T → Prop
  | .turn turn => timed.call.enabled turn ∧ timed.Answers duration values turn
  | .pass => timed.Quiet duration

def act (timed : Timed ε T) : Tick ε T → Timed ε T
  | .turn turn =>
    { timed with
      call := timed.call.act turn
      begun := match Call.starts (timed.call, turn) with
        | some index => timed.begun.insert index timed.clock
        | none => timed.begun }
  | .pass => { timed with clock := timed.clock + 1 }

def Step (timed : Timed ε T) (tick : Tick ε T) (after : Timed ε T) : Prop :=
  timed.enabled duration values tick ∧ timed.act tick = after

def remaining (timed : Timed ε T) (at_ : Nat) : Nat :=
  match timed.begun.get at_ with
  | some begun => begun + duration at_ - timed.clock
  | none => duration at_

def load (nodes : List GraphNode) (timed : Timed ε T) : Nat :=
  ∑ at_ ∈ Finset.range nodes.length, timed.remaining duration at_

end Timed

def Tick.drives : Tick ε T → Bool
  | .turn taken => taken.drives
  | .pass => false

def Bounds (nodes : List GraphNode) (weight : Nat → Nat) (longest : Nat) : Prop :=
  ∀ at_ < nodes.length, ∀ chain, Chain nodes at_ chain → (chain.map weight).sum ≤ longest

structure Timely (nodes : List GraphNode) (duration : Nat → Nat) (values : Nat → T) (width : Nat)
    (trace : List (Timed ε T × Tick ε T)) (final : Timed ε T) : Prop where
  bound : ∀ longest, Bounds nodes duration longest →
    width * final.clock ≤ (∑ at_ ∈ Finset.range nodes.length, duration at_) + width * longest
  busy : ∀ taken ∈ trace, ∀ at_, taken.2 = .pass → Startable nodes taken.1.call at_ →
    taken.1.call.inFlight.length = width
  moves : (∃ answer, final.call.phase = .done answer) ∨ final.Quiet duration ∨
    (∃ turn, turn.drives = true ∧ final.enabled duration values (.turn turn)) ∨
    ∃ position, final.Due duration position ∧ final.enabled duration values (.turn (.wake position))
  steps : (trace.filter fun taken => taken.2.drives).length ≤
    4 * nodes.length + 2 + 5 * (trace.filter fun taken => !taken.2.drives).length
  answers : ∀ answer, final.call.phase = .done answer → ∃ report, answer = .ok report ∧
    report.outcomes.map Prod.fst = nodes.map GraphNode.name ∧
      ∀ at_ name (outcome : NodeOutcome ε T), report.outcomes[at_]? = some (name, outcome) →
        outcome = .ran (.ok (values at_))

structure Clocked (nodes : List GraphNode) (plan : Plan) (duration : Nat → Nat) (values : Nat → T)
    (width : Nat) (timed : Timed ε T) : Prop where
  kept : Kept nodes plan width timed.call
  settled : timed.call.phase = .parked → timed.call.notified = true ∨
    timed.call.run.free = [] ∨ timed.call.run.ready = []
  begun_iff : ∀ at_, (timed.begun.get at_).isSome ↔ at_ ∈ timed.call.started
  succeeds : ∀ at_ outcome, timed.call.run.outcomes.get at_ = some outcome →
    outcome = .ran (.ok (values at_)) ∧ ∃ begun, timed.begun.get at_ = some begun ∧
      begun + duration at_ ≤ timed.clock

variable {nodes : List GraphNode} {plan : Plan} {duration : Nat → Nat} {values : Nat → T}
  {width : Nat} {timed after : Timed ε T} {tick : Tick ε T}

section Steps

theorem Clocked.starts_fresh (h : Clocked nodes plan duration values width timed)
    (hp : Planned nodes plan) {turn : Turn ε T} {index : Nat}
    (hstarts : Call.starts (timed.call, turn) = some index) :
    index ∉ timed.call.started ∧ timed.begun.get index = none := by
  have hpicked := h.kept.picked hp (Nat.le_refl width) hstarts
  refine ⟨hpicked.startable.unstarted, ?_⟩
  have hnot := mt (h.begun_iff index).mp hpicked.startable.unstarted
  rwa [Option.not_isSome_iff_eq_none] at hnot

theorem Clocked.outcomes_turn (h : Clocked nodes plan duration values width timed)
    (hp : Planned nodes plan) {turn : Turn ε T}
    (henabled : timed.enabled duration values (.turn turn)) {at_ : Nat} {outcome : NodeOutcome ε T}
    (houtcome : (timed.call.act turn).run.outcomes.get at_ = some outcome) :
    outcome = .ran (.ok (values at_)) ∧ ∃ begun, timed.begun.get at_ = some begun ∧
      begun + duration at_ ≤ timed.clock := by
  obtain ⟨hcan, hanswers⟩ := henabled
  rcases h.kept.outcomes_act hp hcan with hsame | ⟨position, rest, polled, answer, hphase, rfl, hrun⟩
  · rw [hsame] at houtcome
    exact h.succeeds at_ outcome houtcome
  · rw [hrun] at houtcome
    obtain ⟨hdue, hearly⟩ := hanswers position rest polled hphase
    by_cases htime : timed.Due duration position
    · obtain ⟨running, hslot, rfl⟩ := hdue htime
      rw [outcomes_pollSlot hslot, Index.get_insert] at houtcome
      split at houtcome
      · rename_i hsame
        cases houtcome
        obtain ⟨other, begun, hother, hbegun, hlate⟩ := htime
        cases hslot.symm.trans hother
        rw [hsame]
        exact ⟨rfl, begun, hbegun, hlate⟩
      · exact h.succeeds at_ outcome houtcome
    · rw [hearly htime, pollSlot_none] at houtcome
      exact h.succeeds at_ outcome houtcome

/-- A call waits only with no slot free or no node ready, or once it was woken again. -/
theorem Clocked.settled_turn (h : Clocked nodes plan duration values width timed)
    (hp : Planned nodes plan) {turn : Turn ε T} (hcan : timed.call.enabled turn)
    (hparked : (timed.call.act turn).phase = .parked) : (timed.call.act turn).notified = true ∨
      (timed.call.act turn).run.free = [] ∨ (timed.call.act turn).run.ready = [] := by
  cases turn with
  | wake | nudge => exact .inl rfl
  | resume => cases hparked
  | start =>
    obtain ⟨polled, names, hphase⟩ := hcan
    unfold Call.act at hparked ⊢
    simp only [hphase] at hparked ⊢
    cases hnext : timed.call.next with
    | some started =>
      obtain ⟨position, index⟩ := started
      obtain ⟨node, scope, -, heq⟩ :=
        @Kept.startNode_eq ε T nodes plan timed.call width polled position index names h.kept hp hnext
      rw [hnext] at hparked
      change (timed.call.startNode polled names position index).phase = _ at hparked
      rw [heq] at hparked
      cases hparked
    | none =>
      right
      have hidle := Call.next_eq_none hphase hnext
      change (timed.call.endStart polled names).run.free = [] ∨
        (timed.call.endStart polled names).run.ready = []
      unfold Call.endStart
      dsimp only
      split <;> exact hidle
  | poll answer =>
    left
    obtain ⟨rest, polled, hphase⟩ := hcan
    cases rest with
    | nil => exact absurd rfl (h.kept.polling [] polled hphase)
    | cons position rest =>
      unfold Call.act at hparked ⊢
      simp only [hphase] at hparked ⊢
      unfold Call.pollOne at hparked ⊢
      dsimp only at hparked ⊢
      split at hparked
      · rename_i hempty
        split at hparked
        · rename_i hbudget
          rw [hempty, decide_eq_true hbudget]
          exact Bool.or_true _
        · cases hparked
      · cases hparked

theorem Clocked.step (h : Clocked nodes plan duration values width timed) (ha : Accepted nodes)
    (hp : Planned nodes plan) (hwidth : 0 < width)
    (hstep : timed.Step duration values tick after) :
    Clocked nodes plan duration values width after := by
  obtain ⟨henabled, rfl⟩ := hstep
  cases tick with
  | pass =>
    refine ⟨h.kept, h.settled, h.begun_iff, ?_⟩
    intro at_ outcome houtcome
    obtain ⟨hvalue, begun, hbegun, hlate⟩ := h.succeeds at_ outcome houtcome
    exact ⟨hvalue, begun, hbegun, Nat.le_succ_of_le hlate⟩
  | turn turn =>
    have hstarted := h.kept.started_step hp ⟨henabled.1, rfl⟩
    constructor
    case kept => exact h.kept.step ha hp hwidth ⟨henabled.1, rfl⟩
    case settled => exact h.settled_turn hp henabled.1
    case begun_iff =>
      intro at_
      change (Index.get (match Call.starts (timed.call, turn) with
        | some index => timed.begun.insert index timed.clock
        | none => timed.begun) at_).isSome ↔ at_ ∈ (timed.call.act turn).started
      rw [hstarted, List.mem_append]
      cases hstarts : Call.starts (timed.call, turn) with
      | none => simp [h.begun_iff]
      | some index =>
        dsimp only
        rw [Index.get_insert]
        by_cases hsame : at_ = index
        · simp [hsame]
        · simp [hsame, h.begun_iff]
    case succeeds =>
      intro at_ outcome houtcome
      obtain ⟨hvalue, begun, hbegun, hlate⟩ := h.outcomes_turn hp henabled houtcome
      refine ⟨hvalue, begun, ?_, hlate⟩
      change Index.get (match Call.starts (timed.call, turn) with
        | some index => timed.begun.insert index timed.clock
        | none => timed.begun) at_ = some begun
      cases hstarts : Call.starts (timed.call, turn) with
      | none => exact hbegun
      | some index =>
        dsimp only
        rw [Index.get_insert, if_neg]
        · exact hbegun
        · rintro rfl
          rw [(h.starts_fresh hp hstarts).2] at hbegun
          cases hbegun

theorem Clocked.remaining_turn (h : Clocked nodes plan duration values width timed)
    (hp : Planned nodes plan) (turn : Turn ε T) :
    (timed.act (.turn turn)).remaining duration = timed.remaining duration := by
  funext at_
  unfold Timed.remaining Timed.act
  dsimp only
  cases hstarts : Call.starts (timed.call, turn) with
  | none => rfl
  | some index =>
    dsimp only
    rw [Index.get_insert]
    by_cases hsame : at_ = index
    · rw [if_pos hsame, hsame, (h.starts_fresh hp hstarts).2]
      exact Nat.add_sub_cancel_left _ _
    · rw [if_neg hsame]

end Steps

section Passing

theorem remaining_pass_le (timed : Timed ε T) (at_ : Nat) :
    (timed.act .pass).remaining duration at_ ≤ timed.remaining duration at_ := by
  unfold Timed.remaining Timed.act
  dsimp only
  cases timed.begun.get at_ with
  | none => exact Nat.le_refl _
  | some begun => exact Nat.sub_le_sub_left (Nat.le_succ _) _

theorem Clocked.remaining_pass (h : Clocked nodes plan duration values width timed)
    (hquiet : timed.Quiet duration) {at_ : Nat} (hat : at_ ∈ timed.call.inFlight) :
    (timed.act .pass).remaining duration at_ < timed.remaining duration at_ := by
  obtain ⟨hstarted, hnone⟩ := (mem_inFlight timed.call at_).mp hat
  obtain ⟨position, running, hslot, rfl⟩ := h.kept.books.placed.in_flight at_ hstarted hnone
  obtain ⟨begun, hbegun⟩ := Option.isSome_iff_exists.mp ((h.begun_iff _).mpr hstarted)
  have hearly : timed.clock < begun + duration running.index := by
    by_contra hlate
    exact hquiet.running position ⟨running, begun, hslot, hbegun, Nat.not_lt.mp hlate⟩
  unfold Timed.remaining Timed.act
  dsimp only
  rw [hbegun]
  dsimp only
  omega

theorem Clocked.remaining_settled (h : Clocked nodes plan duration values width timed) {at_ : Nat}
    (hstarted : at_ ∈ timed.call.started) (hat : at_ ∉ timed.call.inFlight) :
    timed.remaining duration at_ = 0 := by
  cases houtcome : timed.call.run.outcomes.get at_ with
  | none => exact absurd ((mem_inFlight timed.call at_).mpr ⟨hstarted, houtcome⟩) hat
  | some outcome =>
    obtain ⟨-, begun, hbegun, hlate⟩ := h.succeeds at_ outcome houtcome
    unfold Timed.remaining
    rw [hbegun]
    exact Nat.sub_eq_zero_of_le hlate

theorem Clocked.waits (h : Clocked nodes plan duration values width timed) (hp : Planned nodes plan)
    (hpos : ∀ at_ < nodes.length, 0 < duration at_) (hquiet : timed.Quiet duration)
    (hready : timed.call.run.ready = []) {at_ : Nat} (hlt : at_ < nodes.length)
    (hnot : at_ ∉ timed.call.started) :
    ∃ need, Needs nodes at_ need ∧ 0 < timed.remaining duration need := by
  have hsettled : ∀ other, other ∉ timed.call.started →
      timed.call.run.outcomes.get other = none := by
    intro other hother
    cases houtcome : timed.call.run.outcomes.get other with
    | none => rfl
    | some outcome =>
      obtain ⟨-, begun, hbegun, -⟩ := h.succeeds other outcome houtcome
      exact absurd ((h.begun_iff other).mp (Option.isSome_of_eq_some hbegun)) hother
  have hwaits : ¬ ∀ need, Needs nodes at_ need → timed.call.run.ok need = true := by
    intro hall
    have hzero := (h.kept.books.unmet_eq_zero hp hlt).mpr hall
    have hopen := (h.kept.books.placed.isOpen_iff hlt).mpr ⟨hnot, hsettled at_ hnot⟩
    have hmem := (h.kept.books.counted.ready_iff _ at_).mpr ⟨rfl, hlt, hopen, hzero⟩
    rw [hready] at hmem
    cases hmem
  obtain ⟨need, hneed⟩ := not_forall.mp hwaits
  obtain ⟨hneeds, hopen⟩ := Classical.not_imp.mp hneed
  refine ⟨need, hneeds, ?_⟩
  by_cases hstarted : need ∈ timed.call.started
  · have hnone : timed.call.run.outcomes.get need = none := by
      cases houtcome : timed.call.run.outcomes.get need with
      | none => rfl
      | some outcome =>
        obtain ⟨rfl, -⟩ := h.succeeds need outcome houtcome
        exact absurd (by rw [Scheduler.ok, houtcome]; rfl) hopen
    exact Nat.zero_lt_of_lt
      (h.remaining_pass hquiet ((mem_inFlight timed.call need).mpr ⟨hstarted, hnone⟩))
  · have hbegun := mt (h.begun_iff need).mp hstarted
    rw [Option.not_isSome_iff_eq_none] at hbegun
    unfold Timed.remaining
    rw [hbegun]
    exact hpos need hneeds.lt.2

/-- A chain with no node in flight has nothing left, or comes to what a chain comes to that begins
with a node that was not started. -/
theorem Clocked.chain_open (h : Clocked nodes plan duration values width timed) {at_ : Nat}
    {chain : List Nat} (hchain : Chain nodes at_ chain) (hlt : at_ < nodes.length)
    (hnone : ∀ other ∈ chain, other ∉ timed.call.inFlight) :
    (chain.map (timed.remaining duration)).sum = 0 ∨
      ∃ first < nodes.length, ∃ rest, Chain nodes first rest ∧ first ∉ timed.call.started ∧
        (rest.map (timed.remaining duration)).sum = (chain.map (timed.remaining duration)).sum := by
  induction hchain with
  | last at_ =>
    by_cases hstarted : at_ ∈ timed.call.started
    · left
      have hzero := h.remaining_settled hstarted (hnone at_ List.mem_cons_self)
      simp [hzero]
    · exact .inr ⟨at_, hlt, [at_], .last at_, hstarted, rfl⟩
  | @onward at_ next rest hneeds hrest ih =>
    by_cases hstarted : at_ ∈ timed.call.started
    · have hzero := h.remaining_settled hstarted (hnone at_ List.mem_cons_self)
      rw [List.map_cons, List.sum_cons, hzero, Nat.zero_add]
      exact ih hneeds.lt.1 fun other hother => hnone other (List.mem_cons_of_mem _ hother)
    · exact .inr ⟨at_, hlt, at_ :: rest, .onward hneeds hrest, hstarted, rfl⟩

theorem Clocked.bounds_pass (h : Clocked nodes plan duration values width timed)
    (hp : Planned nodes plan) (hpos : ∀ at_ < nodes.length, 0 < duration at_)
    (hquiet : timed.Quiet duration) (hready : timed.call.run.ready = []) {longest : Nat}
    (hbounds : Bounds nodes (timed.remaining duration) (longest + 1)) :
    Bounds nodes ((timed.act .pass).remaining duration) longest := by
  intro at_ hlt chain hchain
  have hwhole := hbounds at_ hlt chain hchain
  have hless : ∀ other ∈ chain,
      (timed.act .pass).remaining duration other ≤ timed.remaining duration other :=
    fun other _ => remaining_pass_le timed other
  by_cases hsome : ∃ other ∈ chain, other ∈ timed.call.inFlight
  · obtain ⟨other, hother, hflight⟩ := hsome
    have hshorter := List.sum_lt_sum _ _ hless ⟨other, hother, h.remaining_pass hquiet hflight⟩
    omega
  · have hshorter := List.sum_le_sum hless
    push Not at hsome
    rcases h.chain_open hchain hlt hsome with hzero | ⟨first, hfirst, rest, hrest, hnot, hsum⟩
    · omega
    · -- the chain is one node shorter than one that begins with what its first node waits for
      obtain ⟨need, hneeds, hneed⟩ := h.waits hp hpos hquiet hready hfirst hnot
      have hlonger := hbounds need hneeds.lt.2 (need :: rest) (.onward hneeds hrest)
      rw [List.map_cons, List.sum_cons] at hlonger
      omega

theorem Placed.full {started : List Nat} {run : Scheduler ε T} (h : Placed nodes started run)
    (hfree : run.free = []) :
    run.width ≤ (started.filter fun at_ => (run.outcomes.get at_).isNone).length := by
  have htaken : ∀ position < run.width, ∃ running, run.slots.get position = some running := by
    intro position hlt
    apply Option.isSome_iff_exists.mp
    by_contra hnone
    have hmem := (h.mem_free position).mpr ⟨hlt, Option.not_isSome_iff_eq_none.mp hnone⟩
    rw [hfree] at hmem
    cases hmem
  let index := fun position => ((run.slots.get position).map Running.index).getD 0
  have hnodup : ((List.range run.width).map index).Nodup := by
    apply List.Nodup.map_on ?_ List.nodup_range
    intro first hfirst second hsecond hsame
    obtain ⟨left, hleft⟩ := htaken first (List.mem_range.mp hfirst)
    obtain ⟨right, hright⟩ := htaken second (List.mem_range.mp hsecond)
    apply h.slot_inj first second left right hleft hright
    simpa [index, hleft, hright] using hsame
  have hsub : (List.range run.width).map index ⊆
      started.filter fun at_ => (run.outcomes.get at_).isNone := by
    intro at_ hmem
    obtain ⟨position, hposition, rfl⟩ := List.mem_map.mp hmem
    obtain ⟨running, hslot⟩ := htaken position (List.mem_range.mp hposition)
    obtain ⟨hstarted, hnone⟩ := h.slot_running position running hslot
    have hindex : index position = running.index := by simp [index, hslot]
    rw [hindex]
    exact List.mem_filter.mpr ⟨hstarted, Option.isNone_iff_eq_none.mpr hnone⟩
  have hle := (List.subperm_of_subset hnodup hsub).length_le
  rwa [List.length_map, List.length_range] at hle

theorem Clocked.load_pass (h : Clocked nodes plan duration values width timed)
    (hquiet : timed.Quiet duration) :
    (timed.act .pass).load duration nodes + timed.call.inFlight.length ≤
      timed.load duration nodes := by
  have hnodup : timed.call.inFlight.Nodup := h.kept.books.placed.started_nodup.filter _
  have hflight : timed.call.inFlight.length =
      ∑ at_ ∈ Finset.range nodes.length, if at_ ∈ timed.call.inFlight then 1 else 0 := by
    rw [← Finset.card_filter, ← List.toFinset_card_of_nodup hnodup]
    congr 1
    ext at_
    rw [List.mem_toFinset, Finset.mem_filter, Finset.mem_range]
    refine ⟨fun hmem => ⟨?_, hmem⟩, And.right⟩
    exact h.kept.books.placed.started_lt at_ ((mem_inFlight timed.call at_).mp hmem).1
  rw [hflight, Timed.load, Timed.load, ← Finset.sum_add_distrib]
  apply Finset.sum_le_sum
  intro at_ _
  split
  · rename_i hmem
    exact h.remaining_pass hquiet hmem
  · exact remaining_pass_le timed at_

def Within (nodes : List GraphNode) (duration : Nat → Nat) (width total : Nat)
    (timed : Timed ε T) : Prop :=
  ∃ longest, Bounds nodes (timed.remaining duration) longest ∧
    width * timed.clock + timed.load duration nodes + width * longest ≤ total

theorem Clocked.within_step (h : Clocked nodes plan duration values width timed)
    (hp : Planned nodes plan) (hpos : ∀ at_ < nodes.length, 0 < duration at_) {total : Nat}
    (hwithin : Within nodes duration width total timed)
    (hstep : timed.Step duration values tick after) : Within nodes duration width total after := by
  obtain ⟨henabled, rfl⟩ := hstep
  obtain ⟨longest, hbounds, hle⟩ := hwithin
  cases tick with
  | turn turn =>
    have hsame := h.remaining_turn hp turn
    refine ⟨longest, ?_, ?_⟩
    · rwa [hsame]
    · rw [Timed.load, hsame]
      exact hle
  | pass =>
    have hquiet : timed.Quiet duration := henabled
    have hload := h.load_pass hquiet
    have hclock : width * (timed.act .pass).clock = width * timed.clock + width :=
      Nat.mul_succ width timed.clock
    have hidle : timed.call.run.free = [] ∨ timed.call.run.ready = [] := by
      apply (h.settled hquiet.parked).resolve_left
      rw [hquiet.unnotified]
      exact Bool.false_ne_true
    rcases hidle with hfree | hready
    · -- every slot is taken, and the load goes down by one for each
      have hfull := h.kept.books.placed.full hfree
      rw [h.kept.width_eq] at hfull
      refine ⟨longest, ?_, ?_⟩
      · intro at_ hlt chain hchain
        exact (List.sum_le_sum fun other _ => remaining_pass_le timed other).trans
          (hbounds at_ hlt chain hchain)
      · unfold Call.inFlight at hload
        omega
    · -- no node is ready, and every chain grows shorter
      obtain ⟨-, hflight⟩ := (h.kept.parked hquiet.parked).resolve_left (by
        rw [hquiet.unnotified]
        exact Bool.false_ne_true)
      obtain ⟨at_, hat⟩ := List.exists_mem_of_ne_nil _ hflight
      have hlt := h.kept.books.placed.started_lt at_ ((mem_inFlight timed.call at_).mp hat).1
      have hone := hbounds at_ hlt [at_] (.last at_)
      have hrunning := h.remaining_pass hquiet hat
      rw [List.map_singleton, List.sum_singleton] at hone
      obtain ⟨shorter, rfl⟩ : ∃ shorter, longest = shorter + 1 :=
        Nat.exists_eq_succ_of_ne_zero (by omega)
      refine ⟨shorter, h.bounds_pass hp hpos hquiet hready hbounds, ?_⟩
      rw [Nat.mul_succ] at hle
      omega

end Passing

section Runs

variable {start final : Timed ε T} {trace : List (Timed ε T × Tick ε T)}

theorem Clocked.full_of_startable (h : Clocked nodes plan duration values width timed)
    (hp : Planned nodes plan) (hquiet : timed.Quiet duration) {at_ : Nat}
    (hat : Startable nodes timed.call at_) : timed.call.inFlight.length = width := by
  have hidle : timed.call.run.free = [] ∨ timed.call.run.ready = [] := by
    apply (h.settled hquiet.parked).resolve_left
    rw [hquiet.unnotified]
    exact Bool.false_ne_true
  rcases hidle with hfree | hready
  · have hleast := h.kept.books.placed.full hfree
    have hmost := h.kept.books.placed.length_in_flight
    rw [h.kept.width_eq] at hleast hmost
    unfold Call.inFlight
    omega
  · have hnone : timed.call.run.outcomes.get at_ = none := by
      cases houtcome : timed.call.run.outcomes.get at_ with
      | none => rfl
      | some outcome =>
        obtain ⟨-, begun, hbegun, -⟩ := h.succeeds at_ outcome houtcome
        exact absurd ((h.begun_iff at_).mp (Option.isSome_of_eq_some hbegun)) hat.unstarted
    have hopen := (h.kept.books.placed.isOpen_iff hat.lt).mpr ⟨hat.unstarted, hnone⟩
    have hzero := (h.kept.books.unmet_eq_zero hp hat.lt).mpr hat.needs_ok
    have hmem := (h.kept.books.counted.ready_iff _ at_).mpr ⟨rfl, hat.lt, hopen, hzero⟩
    rw [hready] at hmem
    cases hmem

/-- A call that is not done can take a step of its own, is to be woken by a body that took its
time, or waits for time to pass. -/
theorem Clocked.moves (h : Clocked nodes plan duration values width timed) :
    (∃ answer, timed.call.phase = .done answer) ∨ timed.Quiet duration ∨
      (∃ turn, turn.drives = true ∧ timed.enabled duration values (.turn turn)) ∨
      ∃ position, timed.Due duration position ∧
        timed.enabled duration values (.turn (.wake position)) := by
  classical
  cases hphase : timed.call.phase with
  | done answer => exact .inl ⟨answer, rfl⟩
  | starting polled names =>
    exact .inr (.inr (.inl ⟨.start, rfl, ⟨polled, names, hphase⟩, trivial⟩))
  | polling rest polled =>
    right; right; left
    cases rest with
    | nil => exact absurd rfl (h.kept.polling [] polled hphase)
    | cons position rest =>
      by_cases hdue : timed.Due duration position
      · obtain ⟨running, begun, hslot, htime⟩ := hdue
        refine ⟨.poll (some (.ok (values running.index))), rfl, ⟨_, polled, hphase⟩, ?_⟩
        intro other others count hsame
        cases hphase.symm.trans hsame
        exact ⟨fun _ => ⟨running, hslot, rfl⟩,
          fun hearly => absurd ⟨running, begun, hslot, htime⟩ hearly⟩
      · refine ⟨.poll none, rfl, ⟨_, polled, hphase⟩, ?_⟩
        intro other others count hsame
        cases hphase.symm.trans hsame
        exact ⟨fun htime => absurd htime hdue, fun _ => rfl⟩
  | parked =>
    right
    by_cases hnotified : timed.call.notified = true
    · exact .inr (.inl ⟨.resume, rfl, ⟨hphase, hnotified⟩, trivial⟩)
    by_cases hdue : ∃ position, timed.Due duration position
    · obtain ⟨position, hdue⟩ := hdue
      obtain ⟨running, begun, hslot, htime⟩ := hdue
      right; right
      refine ⟨position, ⟨running, begun, hslot, htime⟩, ?_, trivial⟩
      exact h.kept.books.placed.slot_lt position running hslot
    · exact .inl ⟨hphase, Bool.eq_false_iff.mpr hnotified, not_exists.mp hdue⟩

theorem Clocked.left_step (h : Clocked nodes plan duration values width timed)
    (hp : Planned nodes plan) (hstep : timed.Step duration values tick after) :
    after.call.left nodes + tick.drives.toNat ≤
      timed.call.left nodes + 5 * (!tick.drives).toNat := by
  obtain ⟨henabled, rfl⟩ := hstep
  cases tick with
  | turn turn => exact h.kept.left_step hp ⟨henabled.1, rfl⟩
  | pass => exact Nat.le_add_right _ _

theorem Clocked.timely (h : Clocked nodes plan duration values width start) (ha : Accepted nodes)
    (hp : Planned nodes plan) (hwidth : 0 < width)
    (hpos : ∀ at_ < nodes.length, 0 < duration at_) (hclock : start.clock = 0)
    (hbegun : start.begun = .empty) (hleft : start.call.left nodes ≤ 4 * nodes.length + 2)
    (hrun : Run (Timed.Step duration values) start trace final) :
    Timely nodes duration values width trace final := by
  have hkeep : ∀ (state : Timed ε T) (tick : Tick ε T) (next : Timed ε T),
      Clocked nodes plan duration values width state → state.Step duration values tick next →
        Clocked nodes plan duration values width next :=
    fun _ _ _ hnow hstep => hnow.step ha hp hwidth hstep
  have hfinal := hrun.always h hkeep
  constructor
  case bound =>
    intro longest hbounds
    have hremaining : start.remaining duration = duration := by
      funext at_
      rw [Timed.remaining, hbegun]
      rfl
    have hwithin := hrun.always
      (I := fun state => Clocked nodes plan duration values width state ∧
        Within nodes duration width
          ((∑ at_ ∈ Finset.range nodes.length, duration at_) + width * longest) state)
      ⟨h, longest, by rwa [hremaining], by
        rw [hclock, Timed.load, hremaining, Nat.mul_zero, Nat.zero_add]⟩
      fun state tick next hnow hstep =>
        ⟨hkeep state tick next hnow.1 hstep, hnow.1.within_step hp hpos hnow.2 hstep⟩
    obtain ⟨-, left, -, hle⟩ := hwithin
    omega
  case busy =>
    intro taken hmem at_ hpass hat
    obtain ⟨before, rest, rfl⟩ := List.append_of_mem hmem
    obtain ⟨state, hbefore, hafter⟩ := hrun.split
    obtain ⟨rfl, next, ⟨henabled, -⟩, -⟩ := hafter.head
    have hstate := hbefore.always h hkeep
    rw [hpass] at henabled
    exact hstate.full_of_startable hp henabled hat
  case moves => exact hfinal.moves
  case steps =>
    have hsteps := hrun.potential h hkeep fun state tick next hnow hstep =>
      hnow.left_step hp hstep
    omega
  case answers =>
    intro answer hdone
    obtain ⟨report, hanswer, hcomplete⟩ := hfinal.kept.answers ha hp hdone
    refine ⟨report, hanswer, hcomplete.names, ?_⟩
    intro at_ name outcome hentry
    have hlt : at_ < nodes.length := by
      have hlength := congrArg List.length hcomplete.names
      rw [List.length_map, List.length_map] at hlength
      rw [← hlength]
      exact (List.getElem?_eq_some_iff.mp hentry).1
    obtain ⟨other, found, hfound, houtcome, -⟩ := hcomplete.outcome at_ hlt
    cases hentry.symm.trans hfound
    exact (hfinal.succeeds at_ outcome houtcome).1

end Runs

/-- On so many slots a run whose bodies take their times and succeed ends within the work divided
by the slots, and the longest chain; no moment passes with a slot free and a node to start. -/
theorem makespan (ε : Type) {T : Type} (nodes : List GraphNode) (scope : Scope) (step : String)
    (limit : Option NonZero) (fanOut : NonZero) (duration : Nat → Nat) (values : Nat → T)
    (h : validate nodes = .ok ()) (hroom : scope.depth + 2 ≤ maxDepth)
    (hpos : ∀ at_ < nodes.length, 0 < duration at_) :
    ∃ start : Call ε T, runGraph ε T scope step limit fanOut nodes = .ok start ∧
      ∀ trace final, Run (Timed.Step duration values) ⟨start, 0, .empty⟩ trace final →
        Timely nodes duration values (Graph.width limit fanOut nodes.length) trace final := by
  have ha := accepted_of_validate h
  obtain ⟨plan, hp, hstart⟩ :=
    runGraph_eq ε T h scope step limit fanOut (by omega : scope.depth < maxDepth)
  refine ⟨_, hstart, fun trace final hrun => ?_⟩
  have hdepth : (⟨scope.join step, scope.depth + 1⟩ : Scope).depth < maxDepth := by
    change scope.depth + 1 < maxDepth
    omega
  have hkept := kept_start ε T ha hp hdepth (Graph.width limit fanOut nodes.length)
  refine @Clocked.timely ε T nodes plan _ _ _ _ _ _ ?_ ha hp
    (width_pos limit fanOut nodes.length) hpos rfl rfl ?_ hrun
  case refine_2 =>
    have hopened : opened nodes (Scheduler.new plan nodes (Graph.width limit fanOut nodes.length) :
        Scheduler ε T) ≤ nodes.length :=
      (List.length_filter_le _ _).trans List.length_range.le
    simp only [Call.left, Phase.left, Wakes.new, List.length_nil, Bool.toNat_true]
    omega
  constructor
  case kept => exact hkept
  case settled => exact fun _ => .inl rfl
  case begun_iff =>
    intro at_
    exact ⟨fun hsome => (by cases hsome), fun hmem => (by cases hmem)⟩
  case succeeds =>
    intro at_ outcome houtcome
    cases houtcome

/-- Two nodes that another needs, of three moments and of one, on two slots. -/
theorem makespan_join :
    validate [.new "fetch" [], .new "build" [], .new "report" ["fetch", "build"]] = .ok () ∧
    ∃ start : Call String Nat, runGraph String Nat ⟨"", 0⟩ "lanes" (some ⟨2, by decide⟩)
        ⟨8, by decide⟩ [.new "fetch" [], .new "build" [], .new "report" ["fetch", "build"]] =
          .ok start ∧
      Timely [.new "fetch" [], .new "build" [], .new "report" ["fetch", "build"]]
        (fun at_ => if at_ = 0 then 3 else 1) id 2 [] ⟨start, 0, .empty⟩ := by
  have hvalid : validate [.new "fetch" [], .new "build" [], .new "report" ["fetch", "build"]] =
      .ok () := by
    decide +kernel
  obtain ⟨start, hstart, hall⟩ := makespan String _ ⟨"", 0⟩ "lanes" (some ⟨2, by decide⟩)
    ⟨8, by decide⟩ (fun at_ => if at_ = 0 then 3 else 1) id hvalid (by decide) (by decide)
  exact ⟨hvalid, start, hstart, hall [] _ .refl⟩

end LogicalWorks.Graph
