import LogicalWorks.Lib.Index
import Mathlib.Data.List.Perm.Subperm
import Mathlib.Data.List.Nodup

/-! Kahn's pass over a graph: a node is taken once it has no need left, and taking it meets one
need of every node below it.  What the pass leaves out waits on a cycle. -/
namespace LogicalWorks.Kahn

variable {α : Type} [DecidableEq α]

/-- How many needs each node has left, the nodes that have none, and those taken so far. -/
structure State (α : Type) where
  count : Index α Nat
  ready : List α
  order : List α

def release (state : State α) (node : α) : State α :=
  match state.count.get node with
  | none => state
  | some count =>
    { state with
      count := state.count.insert node (count - 1)
      ready := if count - 1 = 0 then node :: state.ready else state.ready }

/-- Take a node that is ready, what is kept of its own count being the caller's choice. -/
def take (finish : Index α Nat → α → Index α Nat) (below : α → List α) (state : State α)
    (node : α) (rest : List α) : State α :=
  (below node).foldl release ⟨finish state.count node, rest, state.order ++ [node]⟩

def pass (finish : Index α Nat → α → Index α Nat) (below : α → List α) :
    Nat → State α → State α
  | 0, state => state
  | fuel + 1, state =>
    match state.ready with
    | [] => state
    | node :: rest => pass finish below fuel (take finish below state node rest)

structure Lawful (nodes : List α) (needs below : α → List α) : Prop where
  nodup : nodes.Nodup
  below_nodup : ∀ node ∈ nodes, (below node).Nodup
  mem_below : ∀ node ∈ nodes, ∀ other, other ∈ below node ↔ other ∈ nodes ∧ node ∈ needs other

def Topological (needs : α → List α) (order : List α) : Prop :=
  ∀ before node after, order = before ++ node :: after → ∀ need ∈ needs node, need ∈ before

def met (needs : α → List α) (order : List α) (node : α) : List α :=
  order.filter fun taken => taken ∈ needs node

structure Sound (nodes : List α) (needs : α → List α) (state : State α) : Prop where
  order_mem : ∀ node ∈ state.order, node ∈ nodes
  order_nodup : state.order.Nodup
  topological : Topological needs state.order
  needs_nodup : ∀ node ∈ state.order, (needs node).Nodup
  counted : ∀ node ∈ nodes, node ∉ state.order → ∃ count, state.count.get node = some count ∧
    count + (met needs state.order node).length = (needs node).length
  ready_mem : ∀ node ∈ state.ready, node ∈ nodes ∧ node ∉ state.order ∧
    state.count.get node = some 0
  ready_nodup : state.ready.Nodup
  ready_all : ∀ node ∈ nodes, node ∉ state.order → state.count.get node = some 0 →
    node ∈ state.ready

variable {nodes : List α} {needs below : α → List α} {state : State α}
  {finish : Index α Nat → α → Index α Nat}

theorem get_release (state : State α) (first node : α) :
    (release state first).count.get node =
      if node = first then (state.count.get node).map (· - 1) else state.count.get node := by
  unfold release
  by_cases hnode : node = first
  · subst hnode
    cases hcount : state.count.get node with
    | none => simp [hcount]
    | some count => simp
  · cases hcount : state.count.get first with
    | none => simp [hnode]
    | some count => simp [Index.get_insert, hnode]

theorem order_release (state : State α) (first : α) :
    (release state first).order = state.order := by
  unfold release
  split <;> rfl

theorem mem_ready_release (state : State α) (first node : α) :
    node ∈ (release state first).ready ↔
      node ∈ state.ready ∨ node = first ∧ ∃ count, state.count.get node = some count ∧
        count - 1 = 0 := by
  unfold release
  cases hcount : state.count.get first with
  | none =>
    refine ⟨.inl, ?_⟩
    rintro (h | ⟨rfl, count, hsome, -⟩)
    · exact h
    · rw [hcount] at hsome
      cases hsome
  | some count =>
    by_cases hlast : count - 1 = 0
    · simp only [hlast, if_true, List.mem_cons]
      constructor
      · rintro (rfl | h)
        · exact .inr ⟨rfl, count, hcount, hlast⟩
        · exact .inl h
      · rintro (h | ⟨rfl, -⟩)
        · exact .inr h
        · exact .inl rfl
    · simp only [hlast, if_false]
      refine ⟨.inl, ?_⟩
      rintro (h | ⟨rfl, other, hother, hzero⟩)
      · exact h
      · cases hcount.symm.trans hother
        exact absurd hzero hlast

theorem nodup_ready_release {first : α} (h : state.ready.Nodup) (hfirst : first ∉ state.ready) :
    (release state first).ready.Nodup := by
  unfold release
  split
  · exact h
  · split
    · exact List.nodup_cons.mpr ⟨hfirst, h⟩
    · exact h

theorem get_foldl_release {released : List α} (hnodup : released.Nodup) (node : α) :
    (released.foldl release state).count.get node =
      if node ∈ released then (state.count.get node).map (· - 1) else state.count.get node := by
  induction released generalizing state with
  | nil => simp
  | cons first rest ih =>
    obtain ⟨hfirst, hrest⟩ := List.nodup_cons.mp hnodup
    rw [List.foldl_cons, ih hrest, get_release]
    by_cases hnode : node = first
    · subst hnode
      simp [hfirst]
    · simp [hnode]

theorem order_foldl_release (released : List α) :
    (released.foldl release state).order = state.order := by
  induction released generalizing state with
  | nil => rfl
  | cons first rest ih => rw [List.foldl_cons, ih, order_release]

theorem mem_ready_foldl_release {released : List α} (hnodup : released.Nodup) (node : α) :
    node ∈ (released.foldl release state).ready ↔
      node ∈ state.ready ∨ node ∈ released ∧
        ∃ count, state.count.get node = some count ∧ count - 1 = 0 := by
  induction released generalizing state with
  | nil => simp
  | cons first rest ih =>
    obtain ⟨hfirst, hrest⟩ := List.nodup_cons.mp hnodup
    rw [List.foldl_cons, ih hrest, mem_ready_release, get_release, List.mem_cons, or_assoc]
    refine or_congr_right ?_
    by_cases hnode : node = first
    · subst hnode
      simp [hfirst]
    · simp [hnode]

theorem nodup_ready_foldl_release {released : List α} (hnodup : released.Nodup)
    (h : state.ready.Nodup) (hreleased : ∀ node ∈ released, node ∉ state.ready) :
    (released.foldl release state).ready.Nodup := by
  induction released generalizing state with
  | nil => exact h
  | cons first rest ih =>
    obtain ⟨hfirst, hrest⟩ := List.nodup_cons.mp hnodup
    refine ih hrest (nodup_ready_release h (hreleased first List.mem_cons_self)) fun node hmem => ?_
    rw [mem_ready_release, not_or]
    refine ⟨hreleased node (List.mem_cons_of_mem _ hmem), ?_⟩
    rintro ⟨rfl, -⟩
    exact hfirst hmem

theorem Sound.needs_met (h : Sound nodes needs state) {node : α} (hnode : node ∈ nodes)
    (hout : node ∉ state.order) (hcount : state.count.get node = some 0) :
    (needs node).Nodup ∧ ∀ need ∈ needs node, need ∈ state.order := by
  obtain ⟨count, hget, hlength⟩ := h.counted node hnode hout
  rw [hcount] at hget
  cases hget
  have hmet : (met needs state.order node).Nodup := h.order_nodup.filter _
  have hsub : met needs state.order node ⊆ needs node := fun need hmem =>
    of_decide_eq_true (List.mem_filter.mp hmem).2
  have hperm := (List.subperm_of_subset hmet hsub).perm_of_length_le (by omega)
  exact ⟨hperm.nodup_iff.mp hmet, fun need hneed =>
    (List.mem_filter.mp (hperm.mem_iff.mpr hneed)).1⟩

omit [DecidableEq α] in
theorem Topological.concat {order : List α} (h : Topological needs order) {node : α}
    (hmet : ∀ need ∈ needs node, need ∈ order) : Topological needs (order ++ [node]) := by
  intro before other after hcut
  rcases List.eq_nil_or_concat after with rfl | ⟨others, last, rfl⟩
  · obtain ⟨rfl, hlast⟩ := List.append_inj' hcut rfl
    cases hlast
    exact hmet
  · rw [List.concat_eq_append, ← List.cons_append, ← List.append_assoc] at hcut
    obtain ⟨rfl, -⟩ := List.append_inj' hcut rfl
    exact h before other others rfl

omit [DecidableEq α] in
theorem Topological.induction {order : List α} {P : α → Prop} (h : Topological needs order)
    (hstep : ∀ node ∈ order, (∀ need ∈ needs node, P need) → P node) : ∀ node ∈ order, P node := by
  induction order using List.reverseRecOn with
  | nil => exact fun node hmem => (by cases hmem)
  | append_singleton before last ih =>
    have hbefore : ∀ node ∈ before, P node := by
      refine ih ?_ fun node hmem => hstep node (List.mem_append_left _ hmem)
      intro left node right hcut
      exact h left node (right ++ [last]) (by rw [hcut]; simp)
    intro node hmem
    rcases List.mem_append.mp hmem with hearlier | hlast
    · exact hbefore node hearlier
    · refine hstep node hmem fun need hneed => hbefore need ?_
      exact h before node [] (by rw [List.mem_singleton.mp hlast]) need hneed

omit [DecidableEq α] in
theorem Topological.behind {order left right : List α} {node next : α}
    (h : Topological needs order) (hnodup : order.Nodup) (hcut : order = left ++ node :: right)
    (hnext : next ∈ order) (hneed : node ∈ needs next) : next ∈ right := by
  have hapart : node ∉ left := by
    rw [hcut, List.nodup_append] at hnodup
    exact fun hmem => hnodup.2.2 node hmem node List.mem_cons_self rfl
  rw [hcut, List.mem_append, List.mem_cons] at hnext
  rcases hnext with hleft | rfl | hright
  · obtain ⟨before, after, rfl⟩ := List.append_of_mem hleft
    have hmem := h before next (after ++ node :: right) (by rw [hcut]; simp) node hneed
    exact absurd (List.mem_append_left _ hmem) hapart
  · exact absurd (h left next right hcut next hneed) hapart
  · exact hright

omit [DecidableEq α] in
theorem Topological.induction_back {order : List α} {P : α → Prop} (h : Topological needs order)
    (hnodup : order.Nodup)
    (hstep : ∀ node ∈ order, (∀ next ∈ order, node ∈ needs next → P next) → P node) :
    ∀ node ∈ order, P node := by
  have hsuffix : ∀ size left node right, order = left ++ node :: right → right.length ≤ size →
      P node := by
    intro size
    induction size with
    | zero =>
      intro left node right hcut hlength
      apply hstep node (hcut ▸ List.mem_append_right _ List.mem_cons_self)
      intro next hnext hneed
      have hbehind := h.behind hnodup hcut hnext hneed
      rw [List.eq_nil_of_length_eq_zero (Nat.le_zero.mp hlength)] at hbehind
      cases hbehind
    | succ size ih =>
      intro left node right hcut hlength
      apply hstep node (hcut ▸ List.mem_append_right _ List.mem_cons_self)
      intro next hnext hneed
      obtain ⟨others, later, rfl⟩ :=
        List.append_of_mem (h.behind hnodup hcut hnext hneed)
      apply ih (left ++ node :: others) next later
      · rw [hcut]
        simp
      · rw [List.length_append, List.length_cons] at hlength
        omega
  intro node hmem
  obtain ⟨left, right, hcut⟩ := List.append_of_mem hmem
  exact hsuffix right.length left node right hcut (Nat.le_refl _)

theorem length_met_concat (order : List α) (node other : α) :
    (met needs (order ++ [node]) other).length =
      (met needs order other).length + if node ∈ needs other then 1 else 0 := by
  rw [met, List.filter_append, List.length_append]
  by_cases h : node ∈ needs other <;> simp [met, h]

theorem Sound.below_waits (h : Sound nodes needs state) (hlawful : Lawful nodes needs below)
    {node other : α} (hnode : node ∈ state.ready) (hother : other ∈ below node) :
    other ∈ nodes ∧ other ∉ state.order ++ [node] ∧
      ∃ count, state.count.get other = some (count + 1) := by
  obtain ⟨hin, hout, hzero⟩ := h.ready_mem node hnode
  obtain ⟨hmem, hneeds⟩ := (hlawful.mem_below node hin other).mp hother
  have hnotTaken : other ∉ state.order := by
    intro htaken
    obtain ⟨before, after, hcut⟩ := List.append_of_mem htaken
    have := h.topological before other after hcut node hneeds
    exact hout (hcut ▸ List.mem_append_left _ this)
  refine ⟨hmem, ?_, ?_⟩
  · rw [List.mem_append, List.mem_singleton, not_or]
    refine ⟨hnotTaken, ?_⟩
    rintro rfl
    exact hout ((h.needs_met hin hout hzero).2 other hneeds)
  · obtain ⟨count, hcount, -⟩ := h.counted other hmem hnotTaken
    cases count with
    | zero => exact absurd ((h.needs_met hmem hnotTaken hcount).2 node hneeds) hout
    | succ count => exact ⟨count, hcount⟩

theorem Sound.take (h : Sound nodes needs state) (hlawful : Lawful nodes needs below)
    (hfinish : ∀ count node other, other ≠ node → (finish count node).get other = count.get other)
    {node : α} {rest : List α} (hready : state.ready = node :: rest) :
    Sound nodes needs (take finish below state node rest) := by
  have hmem : node ∈ state.ready := hready ▸ List.mem_cons_self
  obtain ⟨hin, hout, hzero⟩ := h.ready_mem node hmem
  obtain ⟨hnotRest, hrest⟩ := List.nodup_cons.mp (hready ▸ h.ready_nodup)
  have hbelow := hlawful.below_nodup node hin
  have horder : (Kahn.take finish below state node rest).order = state.order ++ [node] :=
    order_foldl_release _
  have hcount {other : α} (hother : other ∉ state.order ++ [node]) :
      (Kahn.take finish below state node rest).count.get other =
        if other ∈ below node then (state.count.get other).map (· - 1)
        else state.count.get other := by
    unfold Kahn.take
    rw [get_foldl_release hbelow, hfinish]
    rintro rfl
    exact hother (List.mem_append_right _ (List.mem_singleton_self _))
  have hmemReady (other : α) : other ∈ (Kahn.take finish below state node rest).ready ↔
      other ∈ rest ∨ other ∈ below node ∧ ∃ count, state.count.get other = some count ∧
        count - 1 = 0 := by
    unfold Kahn.take
    rw [mem_ready_foldl_release hbelow]
    refine or_congr_right (and_congr_right fun hother => ?_)
    rw [hfinish]
    rintro rfl
    exact (h.below_waits hlawful hmem hother).2.1
      (List.mem_append_right _ (List.mem_singleton_self _))
  have hkept {other : α} (hother : other ∈ rest) :
      other ∈ nodes ∧ other ∉ state.order ++ [node] ∧ other ∉ below node ∧
        state.count.get other = some 0 := by
    obtain ⟨hotherIn, hotherOut, hotherZero⟩ :=
      h.ready_mem other (hready ▸ List.mem_cons_of_mem _ hother)
    refine ⟨hotherIn, ?_, fun hwaits => ?_, hotherZero⟩
    · rw [List.mem_append, List.mem_singleton, not_or]
      exact ⟨hotherOut, fun heq => hnotRest (heq ▸ hother)⟩
    · obtain ⟨count, hsucc⟩ := (h.below_waits hlawful hmem hwaits).2.2
      rw [hotherZero] at hsucc
      cases hsucc
  refine ⟨?_, ?_, ?_, ?_, ?_, ?_, ?_, ?_⟩
  · intro other hother
    rw [horder, List.mem_append, List.mem_singleton] at hother
    rcases hother with hother | rfl
    · exact h.order_mem other hother
    · exact hin
  · rw [horder, List.nodup_append]
    refine ⟨h.order_nodup, List.nodup_singleton _, ?_⟩
    rintro taken htaken other hother rfl
    exact hout (List.mem_singleton.mp hother ▸ htaken)
  · rw [horder]
    exact h.topological.concat (h.needs_met hin hout hzero).2
  · intro other hother
    rw [horder, List.mem_append, List.mem_singleton] at hother
    rcases hother with hother | rfl
    · exact h.needs_nodup other hother
    · exact (h.needs_met hin hout hzero).1
  · intro other hother hnot
    rw [horder] at hnot ⊢
    obtain ⟨count, hget, hlength⟩ := h.counted other hother
      fun htaken => hnot (List.mem_append_left _ htaken)
    rw [hcount hnot, length_met_concat]
    by_cases hwaits : other ∈ below node
    · obtain ⟨left, hleft⟩ := (h.below_waits hlawful hmem hwaits).2.2
      cases hget.symm.trans hleft
      have hneeds := ((hlawful.mem_below node hin other).mp hwaits).2
      refine ⟨left, by rw [if_pos hwaits, hleft]; rfl, ?_⟩
      rw [if_pos hneeds]
      omega
    · have hneeds : node ∉ needs other := fun hneeds =>
        hwaits ((hlawful.mem_below node hin other).mpr ⟨hother, hneeds⟩)
      refine ⟨count, by rw [if_neg hwaits, hget], ?_⟩
      rw [if_neg hneeds]
      exact hlength
  · intro other hother
    rw [horder]
    rcases (hmemReady other).mp hother with hother | ⟨hwaits, count, hget, hlast⟩
    · obtain ⟨hotherIn, hotherOut, hotherWaits, hotherZero⟩ := hkept hother
      exact ⟨hotherIn, hotherOut, by rw [hcount hotherOut, if_neg hotherWaits, hotherZero]⟩
    · obtain ⟨hotherIn, hotherOut, -⟩ := h.below_waits hlawful hmem hwaits
      exact ⟨hotherIn, hotherOut, by
        rw [hcount hotherOut, if_pos hwaits, hget, Option.map_some, hlast]⟩
  · refine nodup_ready_foldl_release hbelow hrest fun other hwaits hother => ?_
    exact (hkept hother).2.2.1 hwaits
  · intro other hother hnot hget
    rw [horder] at hnot
    rw [hcount hnot] at hget
    rw [hmemReady]
    by_cases hwaits : other ∈ below node
    · rw [if_pos hwaits] at hget
      obtain ⟨count, hsome, hlast⟩ := Option.map_eq_some_iff.mp hget
      exact .inr ⟨hwaits, count, hsome, hlast⟩
    · rw [if_neg hwaits] at hget
      have hin := h.ready_all other hother (fun htaken => hnot (List.mem_append_left _ htaken)) hget
      rw [hready] at hin
      refine .inl ((List.mem_cons.mp hin).resolve_left ?_)
      rintro rfl
      exact hnot (List.mem_append_right _ (List.mem_singleton_self _))

theorem Sound.length_le (h : Sound nodes needs state) : state.order.length ≤ nodes.length :=
  (List.subperm_of_subset h.order_nodup h.order_mem).length_le

theorem Sound.pass (h : Sound nodes needs state) (hlawful : Lawful nodes needs below)
    (hfinish : ∀ count node other, other ≠ node → (finish count node).get other = count.get other)
    (fuel : Nat) (hfuel : nodes.length < state.order.length + fuel) :
    Sound nodes needs (pass finish below fuel state) ∧
      (pass finish below fuel state).ready = [] := by
  induction fuel generalizing state with
  | zero => exact absurd h.length_le (by omega)
  | succ fuel ih =>
    rw [Kahn.pass]
    cases hready : state.ready with
    | nil => exact ⟨h, hready⟩
    | cons node rest =>
      refine ih (h.take hlawful hfinish hready) ?_
      unfold Kahn.take
      rw [order_foldl_release, List.length_append, List.length_singleton]
      omega

/-- A pass that ended took every node with all its needs taken, none of them repeated. -/
theorem Sound.taken (h : Sound nodes needs state) (hready : state.ready = []) {node : α}
    (hnode : node ∈ nodes) (hnodup : (needs node).Nodup)
    (hneeds : ∀ need ∈ needs node, need ∈ state.order) : node ∈ state.order := by
  by_contra hout
  obtain ⟨count, hget, hlength⟩ := h.counted node hnode hout
  have hall : needs node ⊆ met needs state.order node := fun need hneed =>
    List.mem_filter.mpr ⟨hneeds need hneed, decide_eq_true hneed⟩
  have hle := (List.subperm_of_subset hnodup hall).length_le
  have hzero : count = 0 := by omega
  have hin := h.ready_all node hnode hout (hzero ▸ hget)
  rw [hready] at hin
  cases hin

theorem Sound.complete (h : Sound nodes needs state) (hready : state.ready = []) {order : List α}
    (horder : Topological needs order) (hsub : ∀ node ∈ order, node ∈ nodes)
    (hneeds : ∀ node ∈ order, (needs node).Nodup) : ∀ node ∈ order, node ∈ state.order := by
  induction order using List.reverseRecOn with
  | nil => exact fun node hmem => (by cases hmem)
  | append_singleton before last ih =>
    have hearlier : Topological needs before := fun left node right hcut =>
      horder left node (right ++ [last]) (by rw [hcut]; simp)
    have htaken := ih hearlier (fun node hmem => hsub node (List.mem_append_left _ hmem))
      fun node hmem => hneeds node (List.mem_append_left _ hmem)
    have hlast : last ∈ before ++ [last] := List.mem_append_right _ (List.mem_singleton_self _)
    intro node hmem
    rcases List.mem_append.mp hmem with hmem | hmem
    · exact htaken node hmem
    rw [List.mem_singleton.mp hmem]
    apply h.taken hready (hsub last hlast) (hneeds last hlast)
    exact fun need hneed => htaken need (horder before last [] rfl need hneed)

theorem get_foldl_release_none {released : List α} {node : α}
    (h : state.count.get node = none) : (released.foldl release state).count.get node = none := by
  induction released generalizing state with
  | nil => exact h
  | cons first rest ih =>
    apply ih
    rw [get_release, h]
    exact ite_self _

theorem count_pass (below : α → List α) (fuel : Nat)
    (h : ∀ node ∈ state.order, state.count.get node = none) :
    ∀ node ∈ (pass Index.erase below fuel state).order,
      (pass Index.erase below fuel state).count.get node = none := by
  induction fuel generalizing state with
  | zero => exact h
  | succ fuel ih =>
    rw [Kahn.pass]
    cases hready : state.ready with
    | nil => exact h
    | cons first rest =>
      apply ih
      intro node hmem
      unfold Kahn.take at hmem ⊢
      rw [order_foldl_release, List.mem_append, List.mem_singleton] at hmem
      apply get_foldl_release_none
      rw [Index.get_erase]
      split
      · rfl
      · rename_i hne
        exact h node (hmem.resolve_right hne)

theorem sound_start {count : Index α Nat} {ready : List α}
    (hcount : ∀ node ∈ nodes, count.get node = some (needs node).length)
    (hready : ∀ node, node ∈ ready ↔ node ∈ nodes ∧ needs node = []) (hnodup : ready.Nodup) :
    Sound nodes needs ⟨count, ready, []⟩ where
  order_mem := fun node hmem => (by cases hmem)
  order_nodup := List.nodup_nil
  topological := fun before node after hcut => (by simp at hcut)
  needs_nodup := fun node hmem => (by cases hmem)
  counted := fun node hnode _ => ⟨_, hcount node hnode, Nat.add_zero _⟩
  ready_mem := by
    intro node hmem
    obtain ⟨hnode, hneeds⟩ := (hready node).mp hmem
    refine ⟨hnode, List.not_mem_nil, ?_⟩
    rw [hcount node hnode, hneeds, List.length_nil]
  ready_nodup := hnodup
  ready_all := by
    intro node hnode _ hget
    rw [hcount node hnode] at hget
    exact (hready node).mpr ⟨hnode, List.eq_nil_of_length_eq_zero (Option.some.inj hget)⟩

end LogicalWorks.Kahn
