import LogicalWorks.Graph.Bookkeeping

/-! What a call of `run_graph` does over every run: which nodes are started, when, and that it ends
with one outcome for each. -/
namespace LogicalWorks.Graph

variable {ε T : Type} {nodes : List GraphNode} {plan : Plan} {call after : Call ε T}

namespace Call

def inFlight (call : Call ε T) : List Nat :=
  call.started.filter fun at_ => (call.run.outcomes.get at_).isNone

def rest (call : Call ε T) : List Nat :=
  match call.phase with
  | .polling rest _ => rest
  | _ => []

def starts (taken : Call ε T × Turn ε T) : Option Nat :=
  match taken.2 with
  | .start => taken.1.next.map Prod.snd
  | _ => none

end Call

def Turn.drives : Turn ε T → Bool
  | .resume | .start | .poll _ => true
  | .wake _ | .nudge => false

structure Startable (nodes : List GraphNode) (call : Call ε T) (at_ : Nat) : Prop where
  lt : at_ < nodes.length
  unstarted : at_ ∉ call.started
  needs_ok : ∀ need, Needs nodes at_ need → call.run.ok need = true

structure Picked (nodes : List GraphNode) (height : Nat → Nat) (bound : Nat) (call : Call ε T)
    (at_ : Nat) : Prop where
  startable : Startable nodes call at_
  room : call.inFlight.length < bound
  tallest : ∀ other, Startable nodes call other →
    height other < height at_ ∨ height other = height at_ ∧ at_ ≤ other

structure Complete (nodes : List GraphNode) (call : Call ε T) (report : GraphReport ε T) : Prop where
  names : report.outcomes.map Prod.fst = nodes.map GraphNode.name
  outcome : ∀ at_ < nodes.length, ∃ name outcome, report.outcomes[at_]? = some (name, outcome) ∧
    call.run.outcomes.get at_ = some outcome ∧ (outcome.isBlocked = false ↔ at_ ∈ call.started)
  started_iff : ∀ at_ < nodes.length,
    at_ ∈ call.started ↔ ∀ need, Needs nodes at_ need → call.run.ok need = true
  idle : call.inFlight = []

structure Governed (nodes : List GraphNode) (bound : Nat) (trace : List (Call ε T × Turn ε T))
    (final : Call ε T) : Prop where
  started_eq : final.started = trace.filterMap Call.starts
  once : final.started.Nodup
  needs_ok : ∀ at_ ∈ final.started, ∀ need, Needs nodes at_ need → final.run.ok need = true
  blocked_iff : ∀ at_ < nodes.length, final.run.blocked at_ = true ↔
    ∃ need, Needs nodes at_ need ∧ final.run.lost need = true
  in_flight : final.inFlight.length ≤ bound
  picks : ∃ height, Heights nodes height ∧ ∀ taken ∈ trace, ∀ at_,
    Call.starts taken = some at_ → Picked nodes height bound taken.1 at_
  answers : ∀ answer, final.phase = .done answer →
    ∃ report, answer = .ok report ∧ Complete nodes final report
  waits : (∀ turn, final.enabled turn → turn.drives = false) →
    (∃ answer, final.phase = .done answer) ∨ final.inFlight ≠ [] ∧ final.unheard = []
  steps : (trace.filter fun taken => taken.2.drives).length ≤
    4 * nodes.length + 2 + 5 * (trace.filter fun taken => !taken.2.drives).length

structure Kept (nodes : List GraphNode) (plan : Plan) (width : Nat) (call : Call ε T) : Prop where
  books : Books nodes plan call.started [] [] call.run
  room : call.here.depth < maxDepth
  width_eq : call.run.width = width
  flags : ∀ position < width,
    call.wakes.queued.get position = some (decide (position ∈ call.wakes.ready))
  unheard : ∀ position ∈ call.unheard, position ∈ call.wakes.ready ∨ position ∈ call.rest
  parked : call.phase = .parked →
    call.notified = true ∨ call.wakes.ready = [] ∧ call.inFlight ≠ []
  polling : ∀ rest polled, call.phase = .polling rest polled → rest ≠ []
  done : ∀ answer, call.phase = .done answer → answer = call.run.report ∧ call.inFlight = [] ∧
    call.run.ready = [] ∧ ∀ position, call.run.slots.get position = none

theorem mem_inFlight (call : Call ε T) (at_ : Nat) :
    at_ ∈ call.inFlight ↔ at_ ∈ call.started ∧ call.run.outcomes.get at_ = none := by
  rw [Call.inFlight, List.mem_filter, Option.isNone_iff_eq_none]

section Books

variable {started : List Nat} {run : Scheduler ε T}

theorem Placed.length_in_flight (h : Placed nodes started run) :
    (started.filter fun at_ => (run.outcomes.get at_).isNone).length + run.free.length ≤
      run.width := by
  let occupied := (List.range run.width).filter fun position => (run.slots.get position).isSome
  have hin : started.filter (fun at_ => (run.outcomes.get at_).isNone) ⊆
      occupied.filterMap fun position => (run.slots.get position).map Running.index := by
    intro at_ hmem
    obtain ⟨hstarted, hnone⟩ := List.mem_filter.mp hmem
    obtain ⟨position, running, hslot, rfl⟩ :=
      h.in_flight at_ hstarted (Option.isNone_iff_eq_none.mp hnone)
    refine List.mem_filterMap.mpr ⟨position, List.mem_filter.mpr ⟨?_, ?_⟩, ?_⟩
    · exact List.mem_range.mpr (h.slot_lt position running hslot)
    · rw [hslot]
      rfl
    · rw [hslot]
      rfl
  have hle := (List.subperm_of_subset (h.started_nodup.filter _) hin).length_le
  have hmap := List.length_filterMap_le
    (fun position => (run.slots.get position).map Running.index) occupied
  have hapart : (run.free ++ occupied).Nodup := by
    refine List.nodup_append.mpr ⟨h.free_nodup, List.nodup_range.filter _, ?_⟩
    rintro position hfree other hother rfl
    have hsome := (List.mem_filter.mp hother).2
    rw [((h.mem_free position).mp hfree).2] at hsome
    cases hsome
  have hsub : run.free ++ occupied ⊆ List.range run.width := by
    intro position hmem
    rcases List.mem_append.mp hmem with hfree | hother
    · exact List.mem_range.mpr ((h.mem_free position).mp hfree).1
    · exact (List.mem_filter.mp hother).1
  have hall := (List.subperm_of_subset hapart hsub).length_le
  rw [List.length_append, List.length_range] at hall
  omega

theorem Placed.exists_in_flight (h : Placed nodes started run) (hrunning : run.running ≠ 0) :
    ∃ at_ ∈ started, run.outcomes.get at_ = none := by
  unfold Scheduler.running at hrunning
  have hsome : ∃ position ∈ List.range run.width, position ∉ run.free := by
    by_contra hall
    push Not at hall
    have hle := (List.subperm_of_subset List.nodup_range hall).length_le
    rw [List.length_range] at hle
    omega
  obtain ⟨position, hlt, hfree⟩ := hsome
  cases hslot : run.slots.get position with
  | none => exact absurd ((h.mem_free position).mpr ⟨List.mem_range.mp hlt, hslot⟩) hfree
  | some running => exact ⟨running.index, h.slot_running position running hslot⟩

theorem Placed.idle (h : Placed nodes started run) (hrunning : run.running = 0) :
    ∀ position, run.slots.get position = none := by
  intro position
  cases hslot : run.slots.get position with
  | none => rfl
  | some running =>
    obtain ⟨hstarted, hnone⟩ := h.slot_running position running hslot
    have hle := h.length_in_flight
    have hmem : running.index ∈ started.filter fun at_ => (run.outcomes.get at_).isNone :=
      List.mem_filter.mpr ⟨hstarted, Option.isNone_iff_eq_none.mpr hnone⟩
    have hpos := List.length_pos_of_mem hmem
    unfold Scheduler.running at hrunning
    omega

theorem Books.report (h : Books nodes plan started [] [] run) (hp : Planned nodes plan)
    (hall : ∀ at_ < nodes.length, ∃ outcome, run.outcomes.get at_ = some outcome) :
    ∃ report, run.report = .ok report ∧ report.outcomes.map Prod.fst = nodes.map GraphNode.name ∧
      ∀ at_ < nodes.length, ∃ name outcome, report.outcomes[at_]? = some (name, outcome) ∧
        run.outcomes.get at_ = some outcome := by
  have hnames : run.plan.names = nodes.map GraphNode.name := h.plan_eq ▸ hp.names_eq
  have hentry {entry : String × Nat} {value : String × NodeOutcome ε T} :
      run.reportOne entry = .ok value ↔
        run.outcomes.get entry.2 = some value.2 ∧ value.1 = entry.1 := by
    unfold Scheduler.reportOne
    cases run.outcomes.get entry.2 with
    | none => simp
    | some outcome => simp [Prod.ext_iff, and_comm, eq_comm]
  obtain ⟨values, hvalues⟩ := @exists_mapM _ _ _ run.plan.names.zipIdx run.reportOne <| by
    intro entry hmem
    have hname := List.mem_zipIdx_iff_getElem?.mp hmem
    rw [hnames, List.getElem?_map] at hname
    obtain ⟨node, hnode, -⟩ := Option.map_eq_some_iff.mp hname
    obtain ⟨outcome, hget⟩ := hall entry.2 (List.getElem?_eq_some_iff.mp hnode).1
    exact ⟨(entry.1, outcome), hentry.mpr ⟨hget, rfl⟩⟩
  have hforall := mapM_eq_ok.mp hvalues
  have hlength := hforall.length_eq
  rw [List.length_zipIdx, hnames, List.length_map] at hlength
  have hat {at_ : Nat} (hlt : at_ < nodes.length) : ∃ outcome,
      values[at_]? = some (nodes[at_].name, outcome) ∧ run.outcomes.get at_ = some outcome := by
    have hlt' : at_ < run.plan.names.zipIdx.length := by
      rw [List.length_zipIdx, hnames, List.length_map]
      exact hlt
    have hvalue : at_ < values.length := hlength ▸ hlt
    have hnow := (List.forall₂_iff_get.mp hforall).2 at_ hlt' hvalue
    rw [List.get_eq_getElem, List.get_eq_getElem, List.getElem_zipIdx, hentry, Nat.zero_add] at hnow
    obtain ⟨hget, hname⟩ := hnow
    refine ⟨values[at_].2, ?_, hget⟩
    rw [List.getElem?_eq_getElem hvalue, Option.some.injEq, Prod.ext_iff]
    refine ⟨hname.trans ?_, rfl⟩
    simp only [hnames, List.getElem_map]
  refine ⟨⟨values, run.schedule⟩, ?_, ?_, ?_⟩
  · unfold Scheduler.report
    rw [hvalues]
    rfl
  · refine List.ext_getElem ?_ fun at_ hleft hright => ?_
    · rw [List.length_map, List.length_map, ← hlength]
    · rw [List.length_map] at hright
      obtain ⟨outcome, hvalue, -⟩ := hat hright
      obtain ⟨hlt, hget⟩ := List.getElem?_eq_some_iff.mp hvalue
      rw [List.getElem_map, List.getElem_map, hget]
  · intro at_ hlt
    obtain ⟨outcome, hvalue, hget⟩ := hat hlt
    exact ⟨_, outcome, hvalue, hget⟩

end Books

section Wakes

variable {wakes : Wakes} {position : Nat}

theorem Wakes.mem_enqueue (h : wakes.queued.get position = some (decide (position ∈ wakes.ready)))
    (other : Nat) : other ∈ (wakes.enqueue position).ready ↔
      other ∈ wakes.ready ∨ other = position := by
  unfold Wakes.enqueue
  rw [h]
  by_cases hmem : position ∈ wakes.ready
  · rw [decide_eq_true hmem]
    exact ⟨.inl, fun hor => hor.elim id fun heq => heq ▸ hmem⟩
  · rw [decide_eq_false hmem]
    change other ∈ wakes.ready ++ [position] ↔ _
    rw [List.mem_append, List.mem_singleton]

theorem Wakes.flags_enqueue (h : wakes.queued.get position = some (decide (position ∈ wakes.ready)))
    {other : Nat} (hother : wakes.queued.get other = some (decide (other ∈ wakes.ready))) :
    (wakes.enqueue position).queued.get other =
      some (decide (other ∈ (wakes.enqueue position).ready)) := by
  unfold Wakes.enqueue
  rw [h]
  by_cases hmem : position ∈ wakes.ready
  · rw [decide_eq_true hmem]
    exact hother
  · rw [decide_eq_false hmem]
    change (wakes.queued.insert position true).get other =
      some (decide (other ∈ wakes.ready ++ [position]))
    rw [Index.get_insert, hother]
    by_cases heq : other = position <;> simp [heq]

theorem Wakes.length_enqueue (wakes : Wakes) (position : Nat) :
    (wakes.enqueue position).ready.length ≤ wakes.ready.length + 1 := by
  unfold Wakes.enqueue
  split
  · exact (List.length_append).le
  · exact Nat.le_succ _

theorem get_unqueueAll (positions : List Nat) (queued : Index Nat Bool) (other : Nat) :
    (positions.foldl Wakes.unqueue queued).get other =
      (queued.get other).map fun flag => flag && !decide (other ∈ positions) := by
  induction positions generalizing queued with
  | nil => cases hget : queued.get other <;> simp [hget]
  | cons first rest ih =>
    rw [List.foldl_cons, ih]
    unfold Wakes.unqueue
    by_cases heq : other = first
    · subst heq
      cases hget : queued.get other with
      | none => simp [hget]
      | some flag => simp
    · cases hget : queued.get first with
      | none => simp [heq]
      | some flag => simp [Index.get_insert, heq]

theorem Wakes.flags_takeReady {other : Nat}
    (h : wakes.queued.get other = some (decide (other ∈ wakes.ready))) :
    wakes.takeReady.queued.get other = some (decide (other ∈ wakes.takeReady.ready)) := by
  unfold Wakes.takeReady
  rw [get_unqueueAll, h]
  by_cases hmem : other ∈ wakes.ready <;> simp [hmem]

end Wakes

section Steps

variable {width polled position index : Nat} {names : List String}

theorem Call.next_eq_some (hnext : call.next = some (position, index)) :
    (∃ polled names, call.phase = .starting polled names) ∧ ∃ free height ready,
      call.run.free = position :: free ∧ call.run.ready = (height, index) :: ready := by
  unfold Call.next at hnext
  split at hnext
  · rename_i polled names _ free height _ ready hphase hfree hready
    cases hnext
    exact ⟨⟨polled, names, hphase⟩, free, height, ready, hfree, hready⟩
  · cases hnext

theorem Call.next_eq_none (hphase : call.phase = .starting polled names) (hnext : call.next = none) :
    call.run.free = [] ∨ call.run.ready = [] := by
  unfold Call.next at hnext
  rw [hphase] at hnext
  cases hfree : call.run.free with
  | nil => exact .inl rfl
  | cons position free =>
    cases hready : call.run.ready with
    | nil => exact .inr rfl
    | cons first ready =>
      rw [hfree, hready] at hnext
      cases hnext

def Scheduler.occupy (run : Scheduler ε T) (position index : Nat) (scope : Scope) : Scheduler ε T :=
  { run with
    free := run.free.tail
    ready := run.ready.tail
    nodes := run.nodes.erase index
    slots := run.slots.insert position ⟨index, scope⟩ }

theorem Kept.startNode_eq (h : Kept nodes plan width call) (hp : Planned nodes plan)
    (hnext : call.next = some (position, index)) : ∃ node scope,
      call.run.nodes.get index = some node ∧ call.startNode polled names position index =
        { call with
          run := call.run.occupy position index scope
          wakes := call.wakes.enqueue position
          phase := .starting polled (names ++ [node.name])
          started := call.started ++ [index]
          unheard := position :: call.unheard } := by
  obtain ⟨-, free, height, ready, hfree, hready⟩ := Call.next_eq_some hnext
  obtain ⟨hlt, hopen, -⟩ := h.books.first_ready hp hready
  obtain ⟨node, hnode⟩ := Option.isSome_iff_exists.mp
    ((h.books.placed.open_iff index hlt).mpr ((h.books.placed.isOpen_iff hlt).mp hopen))
  refine ⟨node, ⟨call.here.join node.name, call.here.depth + 1⟩, hnode, ?_⟩
  unfold Call.startNode
  simp only [hnode]
  unfold Scope.enter
  rw [if_neg (Nat.not_le.mpr h.room)]
  rfl

theorem Kept.startNode (h : Kept nodes plan width call) (hp : Planned nodes plan)
    (hnext : call.next = some (position, index)) :
    Kept nodes plan width (call.startNode polled names position index) := by
  obtain ⟨node, scope, -, heq⟩ := @Kept.startNode_eq ε T nodes plan call width polled position index
    names h hp hnext
  obtain ⟨-, free, height, ready, hfree, hready⟩ := Call.next_eq_some hnext
  have hposition : position < width :=
    h.width_eq ▸ ((h.books.placed.mem_free position).mp (hfree ▸ List.mem_cons_self)).1
  have hmem := Wakes.mem_enqueue (h.flags position hposition)
  rw [heq]
  refine ⟨?_, h.room, h.width_eq, ?_, ?_, fun hparked => (by cases hparked),
    fun _ _ hpolling => (by cases hpolling), fun _ hdone => (by cases hdone)⟩
  · have hbooks := h.books.start hp hfree hready scope
    unfold Scheduler.occupy
    rw [hfree, hready]
    exact hbooks
  · exact fun other hother => Wakes.flags_enqueue (h.flags position hposition) (h.flags other hother)
  · intro other hother
    rcases List.mem_cons.mp hother with heq | hother
    · exact .inl ((hmem other).mpr (.inr heq))
    · rcases h.unheard other hother with hready | hrest
      · exact .inl ((hmem other).mpr (.inl hready))
      · obtain ⟨⟨_, _, hphase⟩, -⟩ := Call.next_eq_some hnext
        rw [Call.rest, hphase] at hrest
        cases hrest

theorem Books.point {started : List Nat} {run : Scheduler ε T}
    (h : Books nodes plan started [] [] run) (names : List String) :
    Books nodes plan started [] [] (run.point names) := by
  obtain ⟨hplan, ⟨h1, h2, h3, h4, h5, h6, h7, h8, h9, h10, h11, h12, h13⟩, ⟨c1, c2, c3, c4⟩,
    ⟨b1, b2, b3⟩⟩ := h
  exact ⟨hplan, ⟨h1, h2, h3, h4, h5, h6, h7, h8, h9, h10, h11, h12, h13⟩, ⟨c1, c2, c3, c4⟩,
    ⟨b1, b2, b3⟩⟩

/-- Nothing more starts and nothing was woken: the call waits for a node, or it answers. -/
theorem Kept.settle (h : Kept nodes plan width call) (hwidth : 0 < width)
    (hphase : call.phase = .starting polled names) (hnext : call.next = none)
    (hqueue : call.wakes.ready = []) : Kept nodes plan width { call with
      run := call.run.point names
      phase := if (call.run.point names).running = 0 then .done (call.run.point names).report
        else .parked } := by
  have hrest : call.rest = [] := by rw [Call.rest, hphase]
  refine ⟨h.books.point names, h.room, h.width_eq, h.flags, ?_, ?_, ?_, ?_⟩
  · intro position hmem
    have hbefore := h.unheard position hmem
    rw [hrest] at hbefore
    exact .inl (hbefore.resolve_right List.not_mem_nil)
  · intro hparked
    refine .inr ⟨hqueue, ?_⟩
    have hrunning : (call.run.point names).running ≠ 0 := fun hzero => by
      dsimp only at hparked
      rw [if_pos hzero] at hparked
      cases hparked
    obtain ⟨at_, hstarted, hnone⟩ := (h.books.point names).placed.exists_in_flight hrunning
    exact List.ne_nil_of_mem ((mem_inFlight call at_).mpr ⟨hstarted, hnone⟩)
  · intro rest others hpolling
    dsimp only at hpolling
    split at hpolling <;> cases hpolling
  · intro answer hdone
    dsimp only at hdone
    split at hdone
    · rename_i hzero
      cases hdone
      have hslots := h.books.placed.idle hzero
      refine ⟨rfl, ?_, ?_, hslots⟩
      · refine List.eq_nil_iff_forall_not_mem.mpr fun at_ hmem => ?_
        obtain ⟨hstarted, hnone⟩ := (mem_inFlight call at_).mp hmem
        obtain ⟨position, running, hslot, -⟩ := h.books.placed.in_flight at_ hstarted hnone
        rw [hslots position] at hslot
        cases hslot
      · refine (Call.next_eq_none hphase hnext).resolve_left fun hfree => ?_
        have hfirst := (h.books.placed.mem_free 0).mpr ⟨h.width_eq ▸ hwidth, hslots 0⟩
        rw [hfree] at hfirst
        cases hfirst
    · cases hdone

theorem Kept.take (h : Kept nodes plan width call) (hphase : call.phase = .starting polled names)
    (hqueue : call.wakes.ready ≠ []) : Kept nodes plan width { call with
      run := call.run.point names
      wakes := call.wakes.takeReady
      phase := .polling call.wakes.ready polled } := by
  have hrest : call.rest = [] := by rw [Call.rest, hphase]
  refine ⟨h.books.point names, h.room, h.width_eq, ?_, ?_, fun hparked => (by cases hparked), ?_,
    fun _ hdone => (by cases hdone)⟩
  · exact fun position hlt => Wakes.flags_takeReady (h.flags position hlt)
  · intro position hmem
    have hbefore := h.unheard position hmem
    rw [hrest] at hbefore
    exact .inr (hbefore.resolve_right List.not_mem_nil)
  · intro rest others hpolling
    cases hpolling
    exact hqueue

structure Scheduler.Closes (before after : Scheduler ε T) : Prop where
  width_eq : after.width = before.width
  opens : ∀ at_, (after.nodes.get at_).isSome → (before.nodes.get at_).isSome

namespace Scheduler.Closes

variable {before middle last : Scheduler ε T}

theorem refl (run : Scheduler ε T) : run.Closes run := ⟨rfl, fun _ => id⟩

theorem trans (h : before.Closes middle) (hlast : middle.Closes last) : before.Closes last :=
  ⟨hlast.width_eq.trans h.width_eq, fun at_ hsome => h.opens at_ (hlast.opens at_ hsome)⟩

theorem foldl {act : Scheduler ε T → Nat → Scheduler ε T}
    (hact : ∀ (run : Scheduler ε T) (at_ : Nat), run.Closes (act run at_)) (items : List Nat)
    (run : Scheduler ε T) : run.Closes (items.foldl act run) := by
  induction items generalizing run with
  | nil => exact refl run
  | cons first rest ih => exact (hact run first).trans (ih _)

theorem release (run : Scheduler ε T) (next : Nat) : run.Closes (run.release next) := by
  unfold Scheduler.release
  split
  · exact refl run
  · exact ⟨rfl, fun _ => id⟩

theorem blockOne (run : Scheduler ε T) (at_ : Nat) : run.Closes (run.blockOne at_) := by
  refine ⟨rfl, fun other hsome => ?_⟩
  rw [Scheduler.blockOne, Scheduler.record, Index.get_erase] at hsome
  split at hsome
  · cases hsome
  · exact hsome

theorem blockStack (fuel : Nat) (stack : List Nat) (run : Scheduler ε T) :
    run.Closes (Scheduler.blockStack fuel stack run) := by
  induction fuel generalizing stack run with
  | zero => exact refl run
  | succ fuel ih =>
    cases stack with
    | nil => exact refl run
    | cons first stack =>
      unfold Scheduler.blockStack
      split
      · exact (blockOne run first).trans (ih _ _)
      · exact ih _ _

theorem pollSlot (run : Scheduler ε T) (position : Nat) (answer : Option (Except ε T)) :
    run.Closes (run.pollSlot position answer) := by
  unfold Scheduler.pollSlot
  split
  · rename_i running outcome _
    have hrecord : run.Closes ((run.vacate position).record running.index (.ran outcome)) :=
      ⟨rfl, fun _ => id⟩
    unfold Scheduler.finish
    cases outcome with
    | ok value => exact hrecord.trans (foldl release _ _)
    | error error => exact hrecord.trans (foldl (fun run at_ => blockStack (run.edges + 1) [at_] run) _ _)
  · exact refl run

end Scheduler.Closes

theorem Kept.pollOne (h : Kept nodes plan width call) (ha : Accepted nodes) (hp : Planned nodes plan)
    {rest : List Nat} (hphase : call.phase = .polling (position :: rest) polled)
    (answer : Option (Except ε T)) : Kept nodes plan width (call.pollOne position rest polled answer) := by
  have hrest : call.rest = position :: rest := by rw [Call.rest, hphase]
  refine ⟨h.books.pollSlot ha hp position answer, h.room,
    (Scheduler.Closes.pollSlot _ _ _).width_eq.trans h.width_eq, h.flags, ?_, ?_, ?_, ?_⟩
  · intro other hmem
    obtain ⟨hmem, hne⟩ := List.mem_filter.mp hmem
    have hbefore := h.unheard other hmem
    rw [hrest, List.mem_cons] at hbefore
    have hother : other ≠ position := of_decide_eq_true hne
    refine hbefore.imp_right fun hor => ?_
    have hin := hor.resolve_left hother
    rw [Call.rest, Call.pollOne]
    cases rest with
    | nil => cases hin
    | cons first others => exact hin
  · intro hparked
    left
    unfold Call.pollOne at hparked ⊢
    dsimp only at hparked ⊢
    split at hparked
    · rename_i hempty
      split at hparked
      · rename_i hbudget
        rw [hempty, decide_eq_true hbudget]
        exact Bool.or_true _
      · cases hparked
    · cases hparked
  · intro others count hpolling
    unfold Call.pollOne at hpolling
    dsimp only at hpolling
    split at hpolling
    · split at hpolling <;> cases hpolling
    · rename_i hsome
      cases hpolling
      exact fun hnil => hsome (List.isEmpty_iff.mpr hnil)
  · intro answered hdone
    unfold Call.pollOne at hdone
    dsimp only at hdone
    split at hdone
    · split at hdone <;> cases hdone
    · cases hdone

theorem Kept.step (h : Kept nodes plan width call) (ha : Accepted nodes) (hp : Planned nodes plan)
    (hwidth : 0 < width) {turn : Turn ε T} (hstep : call.Step turn after) :
    Kept nodes plan width after := by
  obtain ⟨henabled, rfl⟩ := hstep
  cases turn with
  | wake position =>
    have hlt : position < width := h.width_eq ▸ henabled
    have hmem := Wakes.mem_enqueue (h.flags position hlt)
    refine ⟨h.books, h.room, h.width_eq, ?_, ?_, fun _ => .inl rfl, h.polling, h.done⟩
    · exact fun other hother => Wakes.flags_enqueue (h.flags position hlt) (h.flags other hother)
    · intro other hother
      rcases List.mem_cons.mp hother with heq | hother
      · exact .inl ((hmem other).mpr (.inr heq))
      · exact (h.unheard other hother).imp_left fun hready => (hmem other).mpr (.inl hready)
  | nudge =>
    exact ⟨h.books, h.room, h.width_eq, h.flags, h.unheard, fun _ => .inl rfl, h.polling, h.done⟩
  | resume =>
    have hrest : call.rest = [] := by rw [Call.rest, henabled.1]
    refine ⟨h.books, h.room, h.width_eq, h.flags, ?_, fun hparked => (by cases hparked),
      fun _ _ hpolling => (by cases hpolling), fun _ hdone => (by cases hdone)⟩
    intro position hmem
    have hbefore := h.unheard position hmem
    rw [hrest] at hbefore
    exact .inl (hbefore.resolve_right List.not_mem_nil)
  | start =>
    obtain ⟨polled, names, hphase⟩ := henabled
    unfold Call.act
    simp only [hphase]
    cases hnext : call.next with
    | some started => exact h.startNode hp hnext
    | none =>
      change Kept _ _ _ (call.endStart polled names)
      unfold Call.endStart
      by_cases hqueue : call.wakes.ready = []
      · rw [if_pos (List.isEmpty_iff.mpr hqueue)]
        exact h.settle hwidth hphase hnext hqueue
      · rw [if_neg fun hempty => hqueue (List.isEmpty_iff.mp hempty)]
        exact h.take hphase hqueue
  | poll answer =>
    obtain ⟨rest, polled, hphase⟩ := henabled
    cases rest with
    | nil => exact absurd rfl (h.polling [] polled hphase)
    | cons position rest =>
      unfold Call.act
      simp only [hphase]
      exact h.pollOne ha hp hphase answer

theorem Kept.outcomes_act (h : Kept nodes plan width call) (hp : Planned nodes plan)
    {turn : Turn ε T} (henabled : call.enabled turn) :
    (call.act turn).run.outcomes = call.run.outcomes ∨
      ∃ position rest polled answer, call.phase = .polling (position :: rest) polled ∧
        turn = .poll answer ∧ (call.act turn).run = call.run.pollSlot position answer := by
  cases turn with
  | wake | nudge | resume => exact .inl rfl
  | start =>
    left
    obtain ⟨polled, names, hphase⟩ := henabled
    unfold Call.act
    simp only [hphase]
    cases hnext : call.next with
    | some started =>
      obtain ⟨node, scope, -, heq⟩ :=
        @Kept.startNode_eq ε T nodes plan call width polled started.1 started.2 names h hp hnext
      change (call.startNode polled names started.1 started.2).run.outcomes = _
      rw [heq]
      rfl
    | none =>
      change (call.endStart polled names).run.outcomes = _
      unfold Call.endStart
      dsimp only
      split <;> rfl
  | poll answer =>
    right
    obtain ⟨rest, polled, hphase⟩ := henabled
    cases rest with
    | nil => exact absurd rfl (h.polling [] polled hphase)
    | cons position rest =>
      refine ⟨position, rest, polled, answer, hphase, rfl, ?_⟩
      unfold Call.act
      simp only [hphase]
      rfl

end Steps

section Outcomes

variable {run : Scheduler ε T}

theorem outcomes_release (next : Nat) : (run.release next).outcomes = run.outcomes := by
  unfold Scheduler.release
  split <;> rfl

theorem outcomes_releaseAll (released : List Nat) :
    (released.foldl Scheduler.release run).outcomes = run.outcomes := by
  induction released generalizing run with
  | nil => rfl
  | cons next rest ih => rw [List.foldl_cons, ih, outcomes_release]

theorem outcomes_pollSlot {position : Nat} {running : Running} {value : T}
    (hslot : run.slots.get position = some running) :
    (run.pollSlot position (some (.ok value))).outcomes =
      run.outcomes.insert running.index (.ran (.ok value)) := by
  unfold Scheduler.pollSlot
  rw [hslot]
  change (((run.vacate position).plan.below running.index).foldl Scheduler.release _).outcomes = _
  rw [outcomes_releaseAll]
  rfl

theorem pollSlot_none (position : Nat) : run.pollSlot position none = run := by
  unfold Scheduler.pollSlot
  cases run.slots.get position <;> rfl

theorem pollSlot_empty {position : Nat} (hslot : run.slots.get position = none)
    (answer : Option (Except ε T)) : run.pollSlot position answer = run := by
  unfold Scheduler.pollSlot
  rw [hslot]

end Outcomes

section Progress

def opened (nodes : List GraphNode) (run : Scheduler ε T) : Nat :=
  ((List.range nodes.length).filter fun at_ => (run.nodes.get at_).isSome).length

def Phase.left : Phase ε T → Nat
  | parked | done _ => 0
  | starting _ _ => 1
  | polling rest _ => 2 + rest.length

def Call.left (nodes : List GraphNode) (call : Call ε T) : Nat :=
  4 * opened nodes call.run + 3 * call.wakes.ready.length + call.phase.left +
    2 * call.notified.toNat

theorem opened_le {before after : Scheduler ε T} (h : before.Closes after) :
    opened nodes after ≤ opened nodes before :=
  (List.monotone_filter_right (List.range nodes.length) fun at_ hsome => h.opens at_ hsome).length_le

theorem opened_erase {run after : Scheduler ε T} {index : Nat} (hlt : index < nodes.length)
    (hopen : (run.nodes.get index).isSome) (hafter : after.nodes = run.nodes.erase index) :
    opened nodes after < opened nodes run := by
  have hapart : index ∉ (List.range nodes.length).filter fun at_ => (after.nodes.get at_).isSome := by
    intro hmem
    have hsome := (List.mem_filter.mp hmem).2
    rw [hafter, Index.get_erase, if_pos rfl] at hsome
    cases hsome
  have hsub : (index :: (List.range nodes.length).filter fun at_ => (after.nodes.get at_).isSome) ⊆
      (List.range nodes.length).filter fun at_ => (run.nodes.get at_).isSome := by
    intro at_ hmem
    rcases List.mem_cons.mp hmem with rfl | hmem
    · exact List.mem_filter.mpr ⟨List.mem_range.mpr hlt, hopen⟩
    · obtain ⟨hrange, hsome⟩ := List.mem_filter.mp hmem
      rw [hafter, Index.get_erase] at hsome
      split at hsome
      · cases hsome
      · exact List.mem_filter.mpr ⟨hrange, hsome⟩
  exact (List.subperm_of_subset
    (List.nodup_cons.mpr ⟨hapart, List.nodup_range.filter _⟩) hsub).length_le

variable {width : Nat}

theorem Kept.left_step (h : Kept nodes plan width call) (hp : Planned nodes plan)
    {turn : Turn ε T} (hstep : call.Step turn after) :
    after.left nodes + turn.drives.toNat ≤ call.left nodes + 5 * (!turn.drives).toNat := by
  obtain ⟨henabled, rfl⟩ := hstep
  cases turn with
  | wake position =>
    have hlength := Wakes.length_enqueue call.wakes position
    have hnotified := Bool.toNat_le call.notified
    simp only [Call.left, Call.act, Turn.drives, Bool.not_false, Bool.toNat_true, Bool.toNat_false]
    omega
  | nudge =>
    have hnotified := Bool.toNat_le call.notified
    simp only [Call.left, Call.act, Turn.drives, Bool.not_false, Bool.toNat_true, Bool.toNat_false]
    omega
  | resume =>
    simp only [Call.left, Call.act, Turn.drives, henabled.1, henabled.2, Phase.left,
      Bool.not_true, Bool.toNat_true, Bool.toNat_false]
    omega
  | start =>
    obtain ⟨polled, names, hphase⟩ := henabled
    unfold Call.act
    simp only [hphase]
    cases hnext : call.next with
    | some started =>
      obtain ⟨position, index⟩ := started
      obtain ⟨node, scope, hnode, heq⟩ :=
        @Kept.startNode_eq ε T nodes plan call width polled position index names h hp hnext
      obtain ⟨-, free, height, ready, -, hready⟩ := Call.next_eq_some hnext
      have hlt := (h.books.first_ready hp hready).1
      have hlength := Wakes.length_enqueue call.wakes position
      change Call.left nodes (call.startNode polled names position index) + _ ≤ _
      rw [heq]
      have hopened := @opened_erase ε T nodes call.run
        (call.run.occupy position index scope) index hlt
        (Option.isSome_iff_exists.mpr ⟨node, hnode⟩) rfl
      simp only [Call.left, Turn.drives, hphase, Phase.left, Bool.not_true, Bool.toNat_true,
        Bool.toNat_false]
      omega
    | none =>
      change Call.left nodes (call.endStart polled names) + _ ≤ _
      unfold Call.endStart
      have hopened : opened nodes (call.run.point names) = opened nodes call.run := rfl
      by_cases hqueue : call.wakes.ready = []
      · rw [if_pos (List.isEmpty_iff.mpr hqueue)]
        simp only [Call.left, Turn.drives, hphase, hopened, Bool.not_true, Bool.toNat_true,
          Bool.toNat_false]
        split <;> simp only [Phase.left] <;> omega
      · rw [if_neg fun hempty => hqueue (List.isEmpty_iff.mp hempty)]
        have hpos := List.length_pos_iff.mpr hqueue
        simp only [Call.left, Turn.drives, hphase, hopened, Phase.left, Wakes.takeReady,
          List.length_nil, Bool.not_true, Bool.toNat_true, Bool.toNat_false]
        omega
  | poll answer =>
    obtain ⟨rest, polled, hphase⟩ := henabled
    cases rest with
    | nil => exact absurd rfl (h.polling [] polled hphase)
    | cons position rest =>
      have hopened := @opened_le ε T nodes _ _ (Scheduler.Closes.pollSlot call.run position answer)
      unfold Call.act
      simp only [hphase]
      unfold Call.pollOne
      simp only [Call.left, Turn.drives, hphase, Bool.not_true, Bool.toNat_true,
        Bool.toNat_false]
      cases rest with
      | nil =>
        by_cases hbudget : pollBudget ≤ polled + 1
        · simp [hbudget, Phase.left]
          omega
        · simp [hbudget, Phase.left]
          omega
      | cons other rest =>
        simp [Phase.left]
        omega

end Progress

section Start

theorem mem_addRoots (ha : Accepted nodes) (hp : Planned nodes plan) {positions : List Nat}
    {ready : List (Nat × Nat)} (hlt : ∀ at_ ∈ positions, at_ < nodes.length) (height at_ : Nat) :
    (height, at_) ∈ positions.foldl (Scheduler.addRoot plan) ready ↔
      (height, at_) ∈ ready ∨
        at_ ∈ positions ∧ height = plan.heightOf at_ ∧ plan.needsOf at_ = [] := by
  induction positions generalizing ready with
  | nil => simp
  | cons first rest ih =>
    have hnode := List.getElem?_eq_getElem (hlt first List.mem_cons_self)
    have hfirst : (height, at_) ∈ Scheduler.addRoot plan ready first ↔ (height, at_) ∈ ready ∨
        at_ = first ∧ height = plan.heightOf at_ ∧ plan.needsOf at_ = [] := by
      unfold Scheduler.addRoot
      rw [(ha.get_height hp hnode).1]
      change (height, at_) ∈ (if _ then _ else _) ↔ _
      split
      · rename_i hzero
        have hnone := List.length_eq_zero_iff.mp hzero
        rw [mem_insertReady, Prod.mk.injEq, or_comm]
        refine or_congr_right ⟨?_, ?_⟩
        · rintro ⟨rfl, rfl⟩
          exact ⟨rfl, rfl, hnone⟩
        · rintro ⟨rfl, rfl, -⟩
          exact ⟨rfl, rfl⟩
      · rename_i hsome
        refine ⟨.inl, ?_⟩
        rintro (hmem | ⟨rfl, -, hnone⟩)
        · exact hmem
        · exact absurd (List.length_eq_zero_iff.mpr hnone) hsome
    rw [List.foldl_cons, ih fun other hmem => hlt other (List.mem_cons_of_mem _ hmem), hfirst,
      List.mem_cons, or_assoc, or_and_right]

theorem addRoots_sorted {positions : List Nat} {ready : List (Nat × Nat)}
    (hsorted : ready.Pairwise TallerFirst) (hnodup : ready.Nodup) :
    (positions.foldl (Scheduler.addRoot plan) ready).Pairwise TallerFirst ∧
      (positions.foldl (Scheduler.addRoot plan) ready).Nodup := by
  induction positions generalizing ready with
  | nil => exact ⟨hsorted, hnodup⟩
  | cons first rest ih =>
    rw [List.foldl_cons]
    unfold Scheduler.addRoot
    split
    · split
      · exact ih (insertReady_sorted _ hsorted) (insertReady_nodup _ hnodup)
      · exact ih hsorted hnodup
    · exact ih hsorted hnodup

theorem books_new (ε T : Type) (ha : Accepted nodes) (hp : Planned nodes plan) (width : Nat) :
    Books nodes plan [] [] [] (Scheduler.new plan nodes width : Scheduler ε T) := by
  have hunmet {at_ : Nat} (hlt : at_ < nodes.length) :
      (Scheduler.new plan nodes width : Scheduler ε T).unmet.get at_ =
        some (plan.needsOf at_).length := hp.get_unmet hlt
  refine ⟨rfl, ⟨?_, ?_, ?_, ?_, List.nodup_nil, ?_, ?_, ?_, ?_, ?_, ?_, List.nodup_range, ?_⟩,
    ⟨?_, ?_, ?_, ?_⟩, ⟨?_, ?_, ?_⟩⟩
  · exact fun at_ node hnode => hnode
  · intro at_ hlt
    change (nodes[at_]?).isSome ↔ _
    rw [List.getElem?_eq_getElem hlt]
    simp [Scheduler.new]
  · exact fun at_ outcome hget => (by cases hget)
  · exact fun at_ outcome hget => (by cases hget)
  · exact fun at_ hmem => (by cases hmem)
  · exact fun at_ hmem => (by cases hmem)
  · exact fun position running hget => (by cases hget)
  · exact fun position running hget => (by cases hget)
  · exact fun first second left right hget => (by cases hget)
  · exact fun at_ hmem => (by cases hmem)
  · exact fun position => ⟨fun hmem => ⟨List.mem_range.mp hmem, rfl⟩, fun hlt => List.mem_range.mpr hlt.1⟩
  · intro at_ hlt
    refine ⟨_, hunmet hlt, ?_⟩
    have hnone : (plan.needsOf at_).filter
        (Scheduler.new plan nodes width : Scheduler ε T).ok = [] :=
      List.filter_eq_nil_iff.mpr fun need _ hok => (by cases hok)
    rw [hnone]
    rfl
  · intro height at_
    change (height, at_) ∈ (List.range plan.needs.length).foldl (Scheduler.addRoot plan) [] ↔ _
    rw [hp.needs_length, mem_addRoots ha hp fun other hmem => List.mem_range.mp hmem, List.mem_range]
    constructor
    · rintro (hmem | ⟨hlt, hheight, hnone⟩)
      · cases hmem
      · refine ⟨hheight, hlt, ?_, ?_⟩
        · unfold Scheduler.isOpen
          change (true && (nodes[at_]?).isSome) = true
          rw [List.getElem?_eq_getElem hlt]
          rfl
        · rw [hunmet hlt, hnone]
          rfl
    · rintro ⟨hheight, hlt, -, hzero⟩
      rw [hunmet hlt, Option.some.injEq, List.length_eq_zero_iff] at hzero
      exact .inr ⟨hlt, hheight, hzero⟩
  · exact (addRoots_sorted List.Pairwise.nil List.nodup_nil).1
  · exact (addRoots_sorted List.Pairwise.nil List.nodup_nil).2
  · exact fun at_ need _ hlost => (by cases hlost)
  · exact fun at_ hblocked => (by cases hblocked)
  · exact fun at_ hmem => (by cases hmem)

theorem runGraph_eq (ε T : Type) (h : validate nodes = .ok ()) (scope : Scope) (step : String)
    (limit : Option NonZero) (fanOut : NonZero) (hroom : scope.depth < maxDepth) : ∃ plan,
    Planned nodes plan ∧ runGraph ε T scope step limit fanOut nodes = .ok
      ⟨⟨scope.join step, scope.depth + 1⟩, .new plan nodes (width limit fanOut nodes.length),
        .new (width limit fanOut nodes.length), .parked, true, [], []⟩ := by
  obtain ⟨plan, hplan, hplanned⟩ := (accepted_of_validate h).planned
  refine ⟨plan, hplanned, ?_⟩
  unfold runGraph Scope.enter
  rw [h, hplan, if_neg (Nat.not_le.mpr hroom)]
  rfl

theorem kept_start (ε T : Type) (ha : Accepted nodes) (hp : Planned nodes plan) {here : Scope}
    (hroom : here.depth < maxDepth) (width : Nat) :
    Kept nodes plan width
      (⟨here, .new plan nodes width, .new width, .parked, true, [], []⟩ : Call ε T) := by
  refine ⟨books_new ε T ha hp width, hroom, rfl, ?_, fun _ hmem => (by cases hmem),
    fun _ => .inl rfl, fun _ _ hpolling => (by cases hpolling), fun _ hdone => (by cases hdone)⟩
  intro position hlt
  exact if_pos hlt

end Start

section Runs

variable {bound width : Nat} {start final : Call ε T} {trace : List (Call ε T × Turn ε T)}

theorem Kept.started_step (h : Kept nodes plan width call) (hp : Planned nodes plan)
    {turn : Turn ε T} (hstep : call.Step turn after) :
    after.started = call.started ++ (Call.starts (call, turn)).toList := by
  obtain ⟨henabled, rfl⟩ := hstep
  cases turn with
  | wake | nudge | resume => exact (List.append_nil _).symm
  | start =>
    obtain ⟨polled, names, hphase⟩ := henabled
    unfold Call.act Call.starts
    simp only [hphase]
    cases hnext : call.next with
    | some started =>
      obtain ⟨node, scope, -, heq⟩ :=
        @Kept.startNode_eq ε T nodes plan call width polled started.1 started.2 names h hp hnext
      change (call.startNode polled names started.1 started.2).started = _
      rw [heq]
      rfl
    | none =>
      change (call.endStart polled names).started = _
      unfold Call.endStart
      dsimp only
      split <;> exact (List.append_nil _).symm
  | poll answer =>
    obtain ⟨rest, polled, hphase⟩ := henabled
    unfold Call.act
    simp only [hphase]
    cases rest <;> exact (List.append_nil _).symm

theorem Kept.started_run (h : Kept nodes plan width start) (ha : Accepted nodes)
    (hp : Planned nodes plan) (hwidth : 0 < width) (hstart : start.started = [])
    (hrun : Run Call.Step start trace final) : final.started = trace.filterMap Call.starts := by
  induction hrun with
  | refl => exact hstart
  | @snoc trace state next turn before taken ih =>
    have hstate := before.always h fun _ _ _ hnow hstep => hnow.step ha hp hwidth hstep
    rw [hstate.started_step hp taken, ih, List.filterMap_append]
    cases hstarts : Call.starts (state, turn) <;> simp [hstarts]

theorem Kept.picked (h : Kept nodes plan width call) (hp : Planned nodes plan)
    (hbound : width ≤ bound) {turn : Turn ε T} {at_ : Nat}
    (hstarts : Call.starts (call, turn) = some at_) :
    Picked nodes plan.heightOf bound call at_ := by
  obtain ⟨position, hnext⟩ : ∃ position, call.next = some (position, at_) := by
    unfold Call.starts at hstarts
    cases turn with
    | start =>
      obtain ⟨entry, hentry, rfl⟩ := Option.map_eq_some_iff.mp hstarts
      exact ⟨entry.1, hentry⟩
    | wake | nudge | resume | poll => cases hstarts
  obtain ⟨-, free, height, ready, hfree, hready⟩ := Call.next_eq_some hnext
  obtain ⟨hlt, hopen, hneeds, hfirst⟩ := h.books.first_ready hp hready
  refine ⟨⟨hlt, ((h.books.placed.isOpen_iff hlt).mp hopen).1, hneeds⟩, ?_, ?_⟩
  · have hle := h.books.placed.length_in_flight
    rw [hfree, List.length_cons, h.width_eq] at hle
    unfold Call.inFlight
    omega
  · intro other hother
    refine hfirst other hother.lt ?_ hother.needs_ok
    rw [h.books.placed.isOpen_iff hother.lt]
    refine ⟨hother.unstarted, ?_⟩
    -- Were it blocked, one of its needs would be lost.
    cases hget : call.run.outcomes.get other with
    | none => rfl
    | some outcome =>
      have hblocked := h.books.placed.blocked_of_outcome hother.unstarted hget
      obtain ⟨need, hneed, hlost⟩ := h.books.blocking.blocked_lost other hblocked
      rw [Scheduler.not_lost_of_ok (hother.needs_ok need hneed)] at hlost
      cases hlost

theorem Kept.answers (h : Kept nodes plan width call) (ha : Accepted nodes) (hp : Planned nodes plan)
    {answer : Except FlowError (GraphReport ε T)} (hdone : call.phase = .done answer) :
    ∃ report, answer = .ok report ∧ Complete nodes call report := by
  obtain ⟨rfl, hidle, hready, hslots⟩ := h.done answer hdone
  have hall := h.books.settled ha hp hready hslots
  obtain ⟨report, hreport, hnames, houtcome⟩ := h.books.report hp hall
  refine ⟨report, hreport, hnames, ?_, ?_, hidle⟩
  · intro at_ hlt
    obtain ⟨name, outcome, hentry, hget⟩ := houtcome at_ hlt
    refine ⟨name, outcome, hentry, hget, ?_⟩
    rw [← Bool.not_eq_true, h.books.placed.blocked_iff at_ outcome hget, not_not]
  · intro at_ hlt
    refine ⟨h.books.placed.needs_ok at_, fun hneeds => ?_⟩
    by_contra hnot
    obtain ⟨outcome, hget⟩ := hall at_ hlt
    obtain ⟨need, hneed, hlost⟩ := h.books.blocking.blocked_lost at_
      (h.books.placed.blocked_of_outcome hnot hget)
    rw [Scheduler.not_lost_of_ok (hneeds need hneed)] at hlost
    cases hlost

theorem Kept.waits (h : Kept nodes plan width call)
    (hstuck : ∀ turn, call.enabled turn → turn.drives = false) :
    (∃ answer, call.phase = .done answer) ∨ call.inFlight ≠ [] ∧ call.unheard = [] := by
  cases hphase : call.phase with
  | done answer => exact .inl ⟨answer, rfl⟩
  | starting polled names =>
    have hfalse := hstuck .start ⟨polled, names, hphase⟩
    cases hfalse
  | polling rest polled =>
    have hfalse := hstuck (.poll none) ⟨rest, polled, hphase⟩
    cases hfalse
  | parked =>
    right
    have hquiet : call.notified ≠ true := fun hnotified => by
      have hfalse := hstuck .resume ⟨hphase, hnotified⟩
      cases hfalse
    obtain ⟨hqueue, hflight⟩ := (h.parked hphase).resolve_left hquiet
    refine ⟨hflight, List.eq_nil_iff_forall_not_mem.mpr fun position hmem => ?_⟩
    have hbefore := h.unheard position hmem
    rw [hqueue, Call.rest, hphase] at hbefore
    exact hbefore.elim List.not_mem_nil List.not_mem_nil

theorem Kept.governed (h : Kept nodes plan width start) (ha : Accepted nodes)
    (hp : Planned nodes plan) (hwidth : 0 < width) (hbound : width ≤ bound)
    (hstart : start.started = []) (hleft : start.left nodes ≤ 4 * nodes.length + 2)
    (hrun : Run Call.Step start trace final) : Governed nodes bound trace final := by
  have hkeep : ∀ (state : Call ε T) (turn : Turn ε T) (next : Call ε T),
      Kept nodes plan width state → state.Step turn next → Kept nodes plan width next :=
    fun _ _ _ hnow hstep => hnow.step ha hp hwidth hstep
  have hfinal := hrun.always h hkeep
  refine ⟨h.started_run ha hp hwidth hstart hrun, hfinal.books.placed.started_nodup,
    hfinal.books.placed.needs_ok, ?_, ?_, ⟨plan.heightOf, ha.heights hp, ?_⟩,
    fun answer hdone => hfinal.answers ha hp hdone, hfinal.waits, ?_⟩
  · intro at_ _
    refine ⟨hfinal.books.blocking.blocked_lost at_, ?_⟩
    rintro ⟨need, hneed, hlost⟩
    exact (hfinal.books.blocking.blocks at_ need hneed hlost).resolve_right List.not_mem_nil
  · have hle := hfinal.books.placed.length_in_flight
    rw [hfinal.width_eq] at hle
    unfold Call.inFlight
    omega
  · intro taken hmem at_ hstarts
    obtain ⟨before, after, -, hbefore, -⟩ := hrun.cut hmem
    exact (hbefore.always h hkeep).picked hp hbound hstarts
  · have hsteps := hrun.potential h hkeep fun state turn next hnow hstep => hnow.left_step hp hstep
    omega

end Runs

section Depth

/-- A call whose scope has no room for a node's: nothing is started, and nothing else answered. -/
structure Refusing (path : String) (call : Call ε T) : Prop where
  started_eq : call.started = []
  here_eq : call.here = ⟨path, maxDepth⟩
  stands : (∃ position index node, (call.run.free.head? = some position ∧
      call.run.ready.head?.map Prod.snd = some index ∧ call.run.nodes.get index = some node) ∧
      (call.phase = .parked ∨ ∃ polled, call.phase = .starting polled [])) ∨
    call.phase = .done (.error (.tooDeep path maxDepth))

theorem Refusing.start {path : String} (h : Refusing path call) {polled : Nat} {names : List String}
    (hphase : call.phase = .starting polled names) : Refusing path (call.act .start) ∧
      (call.act .start).phase = .done (.error (.tooDeep path maxDepth)) := by
  rcases h.stands with ⟨position, index, node, ⟨hfree, hready, hnode⟩, -⟩ | hdone
  · obtain ⟨entry, hentry, rfl⟩ := Option.map_eq_some_iff.mp hready
    obtain ⟨free, hfree⟩ := List.head?_eq_some_iff.mp hfree
    obtain ⟨ready, hready⟩ := List.head?_eq_some_iff.mp hentry
    have hnext : call.next = some (position, entry.2) := by
      unfold Call.next
      rw [hphase, hfree, hready]
    have hact : call.act .start = call.startNode polled names position entry.2 := by
      unfold Call.act
      simp only [hphase, hnext]
    have hfail : (call.startNode polled names position entry.2).phase =
        .done (.error (.tooDeep path maxDepth)) ∧
        (call.startNode polled names position entry.2).started = call.started ∧
        (call.startNode polled names position entry.2).here = call.here := by
      unfold Call.startNode
      simp only [hnode]
      unfold Scope.enter
      rw [h.here_eq, if_pos (Nat.le_refl _)]
      exact ⟨rfl, rfl, rfl⟩
    rw [hact]
    exact ⟨⟨hfail.2.1.trans h.started_eq, hfail.2.2.trans h.here_eq, .inr hfail.1⟩, hfail.1⟩
  · rw [hphase] at hdone
    cases hdone

theorem Refusing.step {path : String} (h : Refusing path call) {turn : Turn ε T}
    (hstep : call.Step turn after) : Refusing path after := by
  obtain ⟨henabled, rfl⟩ := hstep
  cases turn with
  | wake | nudge => exact ⟨h.started_eq, h.here_eq, h.stands⟩
  | resume =>
    refine ⟨h.started_eq, h.here_eq, .inl ?_⟩
    rcases h.stands with ⟨position, index, node, hhead, -⟩ | hdone
    · exact ⟨position, index, node, hhead, .inr ⟨0, rfl⟩⟩
    · rw [henabled.1] at hdone
      cases hdone
  | start =>
    obtain ⟨polled, names, hphase⟩ := henabled
    exact (h.start hphase).1
  | poll answer =>
    obtain ⟨rest, polled, hphase⟩ := henabled
    rcases h.stands with ⟨_, _, _, -, hparked | ⟨_, hstarting⟩⟩ | hdone
    · rw [hphase] at hparked
      cases hparked
    · rw [hphase] at hstarting
      cases hstarting
    · rw [hphase] at hdone
      cases hdone

theorem Call.run_first (hparked : call.phase = .parked) (hnotified : call.notified = true) :
    Run Call.Step call [(call, .resume), (call.act .resume, .start)]
      ((call.act .resume).act .start) := by
  have hfirst : call.Step .resume (call.act .resume) := ⟨⟨hparked, hnotified⟩, rfl⟩
  have hsecond : (call.act .resume).Step .start ((call.act .resume).act .start) :=
    ⟨⟨0, [], rfl⟩, rfl⟩
  exact Run.snoc (Run.snoc .refl hfirst) hsecond

theorem Refusing.first {path : String} (h : Refusing path call) (hparked : call.phase = .parked)
    (hnotified : call.notified = true) :
    ((call.act .resume).act .start).phase = .done (.error (.tooDeep path maxDepth)) := by
  have hstep : call.Step .resume (call.act .resume) := ⟨⟨hparked, hnotified⟩, rfl⟩
  have hphase : (call.act .resume).phase = .starting 0 [] := rfl
  exact ((h.step hstep).start hphase).2

theorem refusing_start (ε T : Type) (ha : Accepted nodes) (hp : Planned nodes plan) (path : String)
    {width : Nat} (hwidth : 0 < width) : Refusing path
      (⟨⟨path, maxDepth⟩, .new plan nodes width, .new width, .parked, true, [], []⟩ : Call ε T) := by
  obtain ⟨root, hroot, hneeds⟩ : ∃ root < nodes.length, plan.needsOf root = [] := by
    cases horder : (indexPass plan.needs).order with
    | nil =>
      have hin := ha.ordered hp 0 (List.length_pos_iff.mpr ha.nonempty)
      rw [horder] at hin
      cases hin
    | cons root rest =>
      refine ⟨root, ?_, List.eq_nil_iff_forall_not_mem.mpr fun need hneed => ?_⟩
      · exact List.mem_range.mp (hp.sound.1.order_mem root (horder ▸ List.mem_cons_self))
      · have hearlier := hp.topological [] root rest horder need hneed
        cases hearlier
  have hbooks := books_new ε T ha hp width
  have hmem : (plan.heightOf root, root) ∈ (Scheduler.new plan nodes width : Scheduler ε T).ready := by
    change _ ∈ (List.range plan.needs.length).foldl (Scheduler.addRoot plan) []
    rw [hp.needs_length, mem_addRoots ha hp fun other hother => List.mem_range.mp hother]
    exact .inr ⟨List.mem_range.mpr hroot, rfl, hneeds⟩
  obtain ⟨entry, ready, hready⟩ := List.exists_cons_of_ne_nil (List.ne_nil_of_mem hmem)
  obtain ⟨hlt, -⟩ := hbooks.first_ready hp hready
  refine ⟨rfl, rfl, .inl ⟨0, entry.2, nodes[entry.2], ⟨?_, ?_, ?_⟩, .inl rfl⟩⟩
  · change (List.range width).head? = some 0
    rw [List.head?_range, if_neg hwidth.ne']
  · rw [hready]
    rfl
  · exact List.getElem?_eq_getElem hlt

end Depth

theorem width_pos (limit : Option NonZero) (fanOut : NonZero) (count : Nat) :
    0 < width limit fanOut count := by
  unfold width
  omega

theorem width_le (limit : Option NonZero) (fanOut : NonZero) {count : Nat} (h : 0 < count) :
    width limit fanOut count ≤ min (min (limit.getD fanOut).get maxInFlight) count := by
  have hpos := (limit.getD fanOut).pos
  unfold width maxInFlight
  omega

def RefusedDeep (ε T : Type) (nodes : List GraphNode) (scope : Scope) (step : String)
    (limit : Option NonZero) (fanOut : NonZero) : Prop :=
  runGraph ε T scope step limit fanOut nodes = .error (.tooDeep scope.path maxDepth) ∨
    ∃ start, runGraph ε T scope step limit fanOut nodes = .ok start ∧
      ∀ trace final, Run Call.Step start trace final → final.started = [] ∧
        ∀ answer, final.phase = .done answer →
          answer = .error (.tooDeep (scope.join step) maxDepth)

theorem refusedDeep (ε T : Type) (h : validate nodes = .ok ()) (scope : Scope) (step : String)
    (limit : Option NonZero) (fanOut : NonZero) (hdeep : maxDepth < scope.depth + 2) :
    RefusedDeep ε T nodes scope step limit fanOut := by
  have ha := accepted_of_validate h
  have hwidth := width_pos limit fanOut nodes.length
  by_cases hroom : scope.depth < maxDepth
  · obtain ⟨plan, hp, hstart⟩ := runGraph_eq ε T h scope step limit fanOut hroom
    refine .inr ⟨_, hstart, fun trace final hrun => ?_⟩
    have hdepth : scope.depth + 1 = maxDepth := by omega
    rw [hdepth] at hrun
    have hfinal := hrun.always (refusing_start ε T ha hp (scope.join step) hwidth)
      fun _ _ _ hnow hstep => hnow.step hstep
    refine ⟨hfinal.started_eq, fun answer hdone => ?_⟩
    rcases hfinal.stands with ⟨_, _, _, -, hparked | ⟨_, hstarting⟩⟩ | hrefused
    · rw [hdone] at hparked
      cases hparked
    · rw [hdone] at hstarting
      cases hstarting
    · rw [hdone] at hrefused
      exact Phase.done.inj hrefused
  · left
    obtain ⟨plan, hplan, -⟩ := ha.planned
    unfold runGraph Scope.enter
    rw [h, hplan, if_pos (Nat.not_lt.mp hroom)]
    rfl

/-- A declaration that was accepted is run as it should be, in every order its bodies are woken in
and answer, where its scope has room for the graph and its nodes; a deeper one is refused. -/
theorem runGraph_governed (ε T : Type) (nodes : List GraphNode) (scope : Scope) (step : String)
    (limit : Option NonZero) (fanOut : NonZero) (h : validate nodes = .ok ()) :
    (scope.depth + 2 ≤ maxDepth →
      ∃ start, runGraph ε T scope step limit fanOut nodes = .ok start ∧
        ∀ trace final, Run Call.Step start trace final →
          Governed nodes (min (min (limit.getD fanOut).get maxInFlight) nodes.length) trace final) ∧
    (maxDepth < scope.depth + 2 → RefusedDeep ε T nodes scope step limit fanOut) := by
  have ha := accepted_of_validate h
  have hcount := List.length_pos_iff.mpr ha.nonempty
  have hwidth := width_pos limit fanOut nodes.length
  constructor
  · intro hroom
    obtain ⟨plan, hp, hstart⟩ := runGraph_eq ε T h scope step limit fanOut (by omega : scope.depth < maxDepth)
    refine ⟨_, hstart, fun trace final hrun => ?_⟩
    have hdepth : (⟨scope.join step, scope.depth + 1⟩ : Scope).depth < maxDepth := by
      change scope.depth + 1 < maxDepth
      omega
    have hkept := kept_start ε T ha hp hdepth (width limit fanOut nodes.length)
    refine hkept.governed ha hp hwidth (width_le limit fanOut hcount) rfl ?_ hrun
    have hopened : opened nodes (Scheduler.new plan nodes (width limit fanOut nodes.length) :
        Scheduler ε T) ≤ nodes.length :=
      (List.length_filter_le _ _).trans List.length_range.le
    simp only [Call.left, Phase.left, Wakes.new, List.length_nil, Bool.toNat_true]
    omega
  · exact refusedDeep ε T h scope step limit fanOut

/-- A node that waits for another, on at most two slots. -/
theorem runGraph_governed_chain : validate [.new "fetch" [], .new "report" ["fetch"]] = .ok () ∧
    ∃ start, runGraph String Nat ⟨"", 0⟩ "lanes" (some ⟨2, by decide⟩) ⟨8, by decide⟩
        [.new "fetch" [], .new "report" ["fetch"]] = .ok start ∧
      Governed [.new "fetch" [], .new "report" ["fetch"]] 2 [] start := by
  have hvalid : validate [.new "fetch" [], .new "report" ["fetch"]] = .ok () := by decide +kernel
  obtain ⟨start, hstart, hall⟩ := (runGraph_governed String Nat _ ⟨"", 0⟩ "lanes"
    (some ⟨2, by decide⟩) ⟨8, by decide⟩ hvalid).1 (by decide)
  exact ⟨hvalid, start, hstart, hall [] start .refl⟩

/-- One level short of the deepest a graph is accepted and entered, and ends with no outcome. -/
theorem runGraph_too_deep : validate [.new "fetch" []] = .ok () ∧
    ∃ start trace final, runGraph String Nat ⟨"flow", 63⟩ "lanes" none ⟨8, by decide⟩
        [.new "fetch" []] = .ok start ∧
      Run Call.Step start trace final ∧
      final.phase = .done (.error (.tooDeep "flow/lanes" 64)) := by
  have hvalid : validate [.new "fetch" []] = .ok () := by decide +kernel
  have ha := accepted_of_validate hvalid
  obtain ⟨plan, hp, hstart⟩ := runGraph_eq String Nat hvalid ⟨"flow", 63⟩ "lanes" none
    ⟨8, by decide⟩ (by decide)
  have hrefusing := refusing_start String Nat ha hp "flow/lanes" (width_pos none ⟨8, by decide⟩ 1)
  exact ⟨hvalid, _, _, _, hstart, Call.run_first rfl rfl, hrefusing.first rfl rfl⟩

end LogicalWorks.Graph
