import LogicalWorks.Graph.Accepted
import Mathlib.Order.Bounds.Basic
import Mathlib.Data.Fintype.EquivFin
import Mathlib.Data.Fintype.Sets

/-! Which declarations are accepted, and what the heights of a plan measure: a declaration that
can run, and the heaviest chain of nodes that wait for each other. -/
namespace LogicalWorks.Graph

variable {nodes : List GraphNode}

def WaitsFor (nodes : List GraphNode) (name need : String) : Prop :=
  ∃ node ∈ nodes, node.name = name ∧ need ∈ node.needs

structure Runnable (nodes : List GraphNode) : Prop where
  nonempty : nodes ≠ []
  within : nodes.length ≤ maxGraphNodes
  named : ∀ node ∈ nodes, node.name ≠ ""
  names_nodup : (nodes.map GraphNode.name).Nodup
  declared : ∀ node ∈ nodes, ∀ need ∈ node.needs,
    need ∈ nodes.map GraphNode.name ∧ need ≠ node.name
  acyclic : ∀ name, ¬ Relation.TransGen (WaitsFor nodes) name name

inductive Chain (nodes : List GraphNode) : Nat → List Nat → Prop where
  | last (at_ : Nat) : Chain nodes at_ [at_]
  | onward {at_ next : Nat} {rest : List Nat} (needs : Needs nodes next at_)
      (chain : Chain nodes next rest) : Chain nodes at_ (at_ :: rest)

def workAt (nodes : List GraphNode) (at_ : Nat) : Nat := ((nodes[at_]?).map GraphNode.work).getD 0

def chainWorks (nodes : List GraphNode) (at_ : Nat) : Set Nat :=
  {total | ∃ chain, Chain nodes at_ chain ∧ total = (chain.map (workAt nodes)).sum}

section Validation

theorem nameRefusal_eq_none_iff {seen : List String} : nameRefusal seen nodes = none ↔
    (∀ node ∈ nodes, node.name ≠ "") ∧ (nodes.map GraphNode.name).Nodup ∧
      ∀ node ∈ nodes, node.name ∉ seen := by
  induction nodes generalizing seen with
  | nil => simp [nameRefusal]
  | cons first rest ih =>
    rw [nameRefusal, List.map_cons, List.nodup_cons]
    by_cases hempty : first.name = ""
    · simp [hempty]
    by_cases hseen : first.name ∈ seen
    · simp [hempty, hseen]
    rw [if_neg (by simpa using hempty), if_neg hseen, ih]
    simp only [List.forall_mem_cons, List.mem_append, List.mem_singleton, not_or]
    constructor
    · rintro ⟨hnamed, hnodup, hrest⟩
      refine ⟨⟨hempty, hnamed⟩, ⟨?_, hnodup⟩, hseen, fun node hnode => (hrest node hnode).1⟩
      intro hmem
      obtain ⟨node, hnode, hname⟩ := List.mem_map.mp hmem
      exact (hrest node hnode).2 hname
    · rintro ⟨⟨-, hnamed⟩, ⟨hfirst, hnodup⟩, -, hrest⟩
      refine ⟨hnamed, hnodup, fun node hnode => ⟨hrest node hnode, ?_⟩⟩
      intro hname
      exact hfirst (hname ▸ List.mem_map_of_mem hnode)

theorem needRefusal_eq_none_iff {seen : List String} {node : GraphNode} :
    needRefusal seen node = none ↔ ∀ need ∈ node.needs, need ∈ seen ∧ need ≠ node.name := by
  rw [needRefusal, List.findSome?_eq_none_iff]
  apply forall₂_congr
  intro need _
  by_cases hseen : need ∈ seen
  · rw [if_neg (not_not.mpr hseen)]
    by_cases hself : need = node.name
    · rw [if_pos hself]
      simp [hself]
    · rw [if_neg hself]
      simp [hself, hseen]
  · simp [hseen]

/-- A declaration is accepted where no check refuses it and the pass over its names counts no need
that is left. -/
theorem validate_eq_ok_iff : validate nodes = .ok () ↔
    nodes ≠ [] ∧ nodes.length ≤ maxGraphNodes ∧ nameRefusal [] nodes = none ∧
      (∀ node ∈ nodes, needRefusal (nodes.map GraphNode.name) node = none) ∧
      ∀ name ∈ nodes.map GraphNode.name, (namesPass nodes).count.get name = none := by
  have hreason : validate nodes = .ok () ↔ refusalReason nodes = none := by
    unfold validate
    cases refusalReason nodes <;> simp
  rw [hreason, refusalReason]
  by_cases hempty : nodes = []
  · simp [hempty]
  rw [if_neg (by simpa using hempty)]
  by_cases hwithin : nodes.length ≤ maxGraphNodes
  · rw [if_neg (Nat.not_lt.mpr hwithin), Option.or_eq_none_iff, Option.or_eq_none_iff,
      Option.map_eq_none_iff, List.findSome?_eq_none_iff, List.find?_eq_none]
    simp [hempty, hwithin, mem_sortedNames]
  · rw [if_pos (Nat.not_le.mp hwithin)]
    simp [hwithin]

theorem before_of_waits {order : List String} (hnodup : (nodes.map GraphNode.name).Nodup)
    (horder : Kahn.Topological (needsNamed nodes) order) {name need : String}
    (h : Relation.TransGen (WaitsFor nodes) name need) :
    ∀ before after, order = before ++ name :: after → need ∈ before := by
  have hstep : ∀ {name need : String}, WaitsFor nodes name need →
      ∀ before after, order = before ++ name :: after → need ∈ before := by
    rintro _ need ⟨node, hnode, rfl, hneed⟩ before after hcut
    apply horder before node.name after hcut
    rwa [needsNamed_name hnodup hnode]
  induction h with
  | single hwaits => exact hstep hwaits
  | tail _ hwaits ih =>
    intro before after hcut
    obtain ⟨left, right, rfl⟩ := List.append_of_mem (ih before after hcut)
    have hearlier := hstep hwaits left (right ++ name :: after) (by rw [hcut]; simp)
    exact List.mem_append_left _ hearlier

theorem Accepted.acyclic (h : Accepted nodes) (name : String) :
    ¬ Relation.TransGen (WaitsFor nodes) name name := by
  intro hcycle
  obtain ⟨order, horder, hall⟩ := h.order
  have hmem : name ∈ order := by
    obtain ⟨need, ⟨node, hnode, rfl, -⟩, -⟩ := Relation.TransGen.head'_iff.mp hcycle
    exact hall node.name (List.mem_map_of_mem hnode)
  obtain ⟨before, after, hcut, hfirst⟩ := List.eq_append_cons_of_mem hmem
  exact hfirst (before_of_waits h.names_nodup horder hcycle before after hcut)

theorem runnable_of_validate (h : validate nodes = .ok ()) : Runnable nodes := by
  have haccepted := accepted_of_validate h
  obtain ⟨hnonempty, hwithin, hnames, hneeds, -⟩ := validate_eq_ok_iff.mp h
  obtain ⟨hnamed, hnodup, -⟩ := nameRefusal_eq_none_iff.mp hnames
  constructor
  case nonempty => exact hnonempty
  case within => exact hwithin
  case named => exact hnamed
  case names_nodup => exact hnodup
  case declared => exact fun node hnode => needRefusal_eq_none_iff.mp (hneeds node hnode)
  case acyclic => exact haccepted.acyclic

/-- A name that waits for nothing round a cycle is reached by going from each name to those that
wait for it. -/
theorem Runnable.induction (h : Runnable nodes) {P : String → Prop}
    (hstep : ∀ name ∈ nodes.map GraphNode.name,
      (∀ need, WaitsFor nodes name need → P need) → P name) :
    ∀ name ∈ nodes.map GraphNode.name, P name := by
  let earlier : {name // name ∈ nodes.map GraphNode.name} →
      {name // name ∈ nodes.map GraphNode.name} → Prop :=
    fun need name => Relation.TransGen (WaitsFor nodes) name.1 need.1
  have hwell : WellFounded earlier := by
    have : IsTrans _ earlier := ⟨fun _ _ _ hfirst hsecond => hsecond.trans hfirst⟩
    have : Std.Irrefl earlier := ⟨fun name => h.acyclic name.1⟩
    exact Finite.wellFounded_of_trans_of_irrefl earlier
  intro name hname
  have hall := hwell.induction (C := fun name => P name.1) ⟨name, hname⟩
  apply hall
  rintro ⟨name, hname⟩ ih
  apply hstep name hname
  intro need hwaits
  have hdeclared : need ∈ nodes.map GraphNode.name := by
    obtain ⟨node, hnode, -, hneed⟩ := hwaits
    exact (h.declared node hnode need hneed).1
  exact ih ⟨need, hdeclared⟩ (.single hwaits)

theorem Runnable.validate (h : Runnable nodes) (hneeds : ∀ node ∈ nodes, node.needs.Nodup) :
    validate nodes = .ok () := by
  apply validate_eq_ok_iff.mpr
  refine ⟨h.nonempty, h.within, ?_, ?_, ?_⟩
  · exact nameRefusal_eq_none_iff.mpr
      ⟨h.named, h.names_nodup, fun node _ => List.not_mem_nil⟩
  · exact fun node hnode => needRefusal_eq_none_iff.mpr (h.declared node hnode)
  · obtain ⟨hsound, hready⟩ := sound_namesPass h.names_nodup
    have htaken := h.induction (P := fun name => name ∈ (namesPass nodes).order) (by
      intro name hname hwaits
      obtain ⟨node, hnode, rfl⟩ := List.mem_map.mp hname
      have hnamed := needsNamed_name h.names_nodup hnode
      apply hsound.taken hready hname
      · rw [hnamed]
        exact hneeds node hnode
      · rw [hnamed]
        exact fun need hneed => hwaits need ⟨node, hnode, rfl, hneed⟩)
    intro name hname
    apply Kahn.count_pass
    · intro node hmem
      cases hmem
    · exact htaken name hname

end Validation

section Chains

theorem mem_chainWorks_iff {at_ total : Nat} : total ∈ chainWorks nodes at_ ↔
    total = workAt nodes at_ ∨
      ∃ next, Needs nodes next at_ ∧ ∃ rest ∈ chainWorks nodes next,
        total = workAt nodes at_ + rest := by
  constructor
  · rintro ⟨chain, hchain, rfl⟩
    cases hchain with
    | last => exact .inl (Nat.add_zero _)
    | @onward _ next rest hneeds hrest =>
      exact .inr ⟨next, hneeds, _, ⟨rest, hrest, rfl⟩, List.sum_cons⟩
  · rintro (rfl | ⟨next, hneeds, _, ⟨rest, hrest, rfl⟩, rfl⟩)
    · exact ⟨[at_], .last at_, (Nat.add_zero _).symm⟩
    · exact ⟨at_ :: rest, .onward hneeds hrest, List.sum_cons.symm⟩

theorem exists_greatest {totals : Nat → Set Nat} {nexts : List Nat} (hnexts : nexts ≠ [])
    (hall : ∀ next ∈ nexts, ∃ total, IsGreatest (totals next) total) :
    ∃ next ∈ nexts, ∃ total, IsGreatest (totals next) total ∧
      ∀ other ∈ nexts, ∀ rest ∈ totals other, rest ≤ total := by
  induction nexts with
  | nil => exact absurd rfl hnexts
  | cons first others ih =>
    obtain ⟨own, hown⟩ := hall first List.mem_cons_self
    by_cases hothers : others = []
    · refine ⟨first, List.mem_cons_self, own, hown, ?_⟩
      intro other hother rest hrest
      rw [hothers, List.mem_singleton] at hother
      exact hown.2 (hother ▸ hrest)
    · obtain ⟨next, hnext, total, htotal, hmost⟩ :=
        ih hothers fun next hnext => hall next (List.mem_cons_of_mem _ hnext)
      by_cases hle : own ≤ total
      · refine ⟨next, List.mem_cons_of_mem _ hnext, total, htotal, ?_⟩
        intro other hother rest hrest
        rcases List.mem_cons.mp hother with rfl | hother
        · exact (hown.2 hrest).trans hle
        · exact hmost other hother rest hrest
      · refine ⟨first, List.mem_cons_self, own, hown, ?_⟩
        intro other hother rest hrest
        rcases List.mem_cons.mp hother with rfl | hother
        · exact hown.2 hrest
        · exact (hmost other hother rest hrest).trans (Nat.le_of_not_le hle)

def Measures (nodes : List GraphNode) (height : Nat → Nat) (at_ : Nat) : Prop :=
  ∃ total, IsGreatest (chainWorks nodes at_) total ∧ height at_ = min total (2 ^ 64 - 1)

theorem Heights.measures_step {height : Nat → Nat} (h : Heights nodes height) {at_ : Nat}
    (hlt : at_ < nodes.length)
    (hbelow : ∀ next, Needs nodes next at_ → Measures nodes height next) :
    Measures nodes height at_ := by
  have hnode := List.getElem?_eq_getElem hlt
  have hwork : workAt nodes at_ = nodes[at_].work := by
    rw [workAt, hnode]
    rfl
  obtain ⟨heaviest, hheight, hmost, hone⟩ := h.stacked at_ _ hnode
  rw [← hwork, saturatingAdd] at hheight
  classical
  by_cases hnone : ∀ next, ¬ Needs nodes next at_
  · -- the node ends its chains
    have hzero : heaviest = 0 := by
      rcases hone with hzero | ⟨next, hnext, -⟩
      · exact hzero
      · exact absurd hnext (hnone next)
    refine ⟨workAt nodes at_, ⟨mem_chainWorks_iff.mpr (.inl rfl), ?_⟩, ?_⟩
    · intro total htotal
      rcases mem_chainWorks_iff.mp htotal with rfl | ⟨next, hnext, -⟩
      · exact Nat.le_refl _
      · exact absurd hnext (hnone next)
    · rw [hheight, hzero, Nat.add_zero]
  · have hmem : ∀ next, next ∈ (List.range nodes.length).filter (fun next =>
        decide (Needs nodes next at_)) ↔ Needs nodes next at_ := by
      intro next
      rw [List.mem_filter, List.mem_range, decide_eq_true_eq]
      exact and_iff_right_of_imp fun hneeds => hneeds.lt.1
    obtain ⟨first, hfirst⟩ := not_forall_not.mp hnone
    obtain ⟨next, hnext, total, htotal, hall⟩ := @exists_greatest (chainWorks nodes) _
      (List.ne_nil_of_mem ((hmem first).mpr hfirst))
      fun next hnext => (hbelow next ((hmem next).mp hnext)).imp fun _ => And.left
    rw [hmem] at hnext
    have hheaviest : heaviest = min total (2 ^ 64 - 1) := by
      have hcapped : ∀ other, Needs nodes other at_ → ∃ rest ≤ total,
          height other = min rest (2 ^ 64 - 1) := by
        intro other hother
        obtain ⟨rest, hrest, hcap⟩ := hbelow other hother
        exact ⟨rest, hall other ((hmem other).mpr hother) rest hrest.1, hcap⟩
      obtain ⟨most, hmost', hcap⟩ := hbelow next hnext
      have hsame : most = total := hmost'.unique htotal
      have hleast := hmost next hnext
      rw [hcap, hsame] at hleast
      rcases hone with hzero | ⟨other, hother, hattained⟩
      · omega
      · obtain ⟨rest, hle, hrest⟩ := hcapped other hother
        omega
    refine ⟨workAt nodes at_ + total, ⟨?_, ?_⟩, ?_⟩
    · exact mem_chainWorks_iff.mpr (.inr ⟨next, hnext, total, htotal.1, rfl⟩)
    · intro whole hwhole
      rcases mem_chainWorks_iff.mp hwhole with rfl | ⟨other, hother, rest, hrest, rfl⟩
      · exact Nat.le_add_right _ _
      · exact Nat.add_le_add_left (hall other ((hmem other).mpr hother) rest hrest) _
    · rw [hheight, hheaviest]
      omega

theorem Accepted.measures (h : Accepted nodes) {plan : Plan} (hp : Planned nodes plan) :
    ∀ at_ < nodes.length, Measures nodes plan.heightOf at_ := by
  have hall := hp.topological.induction_back (P := Measures nodes plan.heightOf)
    hp.sound.1.order_nodup (by
      intro at_ hat hbelow
      apply (h.heights hp).measures_step (List.mem_range.mp (hp.sound.1.order_mem at_ hat))
      intro next hnext
      exact hbelow next (h.ordered hp next hnext.lt.1) ((hp.mem_needsOf next at_).mpr hnext))
  exact fun at_ hlt => hall at_ (h.ordered hp at_ hlt)

/-- What is accepted can run, and all that can run is accepted where no node names a need twice;
the heights of the plan are the heaviest chains, held at the greatest count. -/
theorem accepts_runnable :
    (∀ nodes, (∀ node ∈ nodes, node.needs.Nodup) →
      (Graph.validate nodes = .ok () ↔ Runnable nodes)) ∧
    ∀ nodes, Graph.validate nodes = .ok () → Runnable nodes ∧
      ∃ plan, Plan.of nodes = .ok plan ∧
        ∀ at_ < nodes.length, Measures nodes plan.heightOf at_ := by
  constructor
  · exact fun nodes hneeds => ⟨runnable_of_validate, fun h => h.validate hneeds⟩
  · intro nodes h
    have haccepted := accepted_of_validate h
    obtain ⟨plan, hplan, hp⟩ := haccepted.planned
    exact ⟨runnable_of_validate h, plan, hplan, haccepted.measures hp⟩

def ValidatesExactly (nodes : List GraphNode) : Prop :=
  (Graph.validate nodes = .ok () ↔ Runnable nodes) ∧
    (Graph.validate nodes = .ok () → ∃ plan, Plan.of nodes = .ok plan ∧
      ∀ at_ < nodes.length, IsGreatest (chainWorks nodes at_) (plan.heightOf at_))

def heavyPair : List GraphNode :=
  [(GraphNode.new "build" []).withWork (2 ^ 64 - 1) (by decide), .new "report" ["build"]]

def repeatedPair : List GraphNode := [.new "build" [], .new "report" ["build", "build"]]

theorem repeatedPair_waits {name need : String} (h : WaitsFor repeatedPair name need) :
    name = "report" ∧ need = "build" := by
  obtain ⟨node, hnode, rfl, hneed⟩ := h
  rcases List.mem_cons.mp hnode with rfl | hnode
  · cases hneed
  · rw [List.mem_singleton.mp hnode] at hneed ⊢
    exact ⟨rfl, by simpa [GraphNode.new] using hneed⟩

theorem repeatedPair_runnable : Runnable repeatedPair where
  nonempty := List.cons_ne_nil _ _
  within := by decide
  named := by decide
  names_nodup := by decide
  declared := by decide
  acyclic := by
    intro name hcycle
    obtain ⟨first, hfirst, -⟩ := Relation.TransGen.head'_iff.mp hcycle
    obtain ⟨last, -, hlast⟩ := Relation.TransGen.tail'_iff.mp hcycle
    have hsame := (repeatedPair_waits hfirst).1.symm.trans (repeatedPair_waits hlast).2
    exact absurd hsame (by decide)

theorem heavyPair_capped : ¬ ValidatesExactly heavyPair := by
  rintro ⟨-, hheights⟩
  have hvalid : Graph.validate heavyPair = .ok () := by decide +kernel
  obtain ⟨plan, hplan, hgreatest⟩ := hheights hvalid
  have haccepted := accepted_of_validate hvalid
  obtain ⟨planned, hplanned, hp⟩ := haccepted.planned
  cases hplan.symm.trans hplanned
  obtain ⟨total, -, hcapped⟩ := haccepted.measures hp 0 (by decide)
  have hchain : 2 ^ 64 ∈ chainWorks heavyPair 0 :=
    ⟨[0, 1], .onward ⟨_, _, rfl, rfl, List.mem_singleton_self _⟩ (.last 1), rfl⟩
  have hleast := (hgreatest 0 (by decide)).2 hchain
  omega

/-- A chain of more work than can be counted is not measured, and a node that names a need twice
is refused for a cycle that is not there. -/
theorem capped_and_refused : ¬ ValidatesExactly heavyPair ∧ ¬ ValidatesExactly repeatedPair := by
  refine ⟨heavyPair_capped, ?_⟩
  rintro ⟨hvalid, -⟩
  have hrefused : Graph.validate repeatedPair =
      .error (.graph "the needs cycle through report: nothing can start it") := by
    decide +kernel
  rw [hvalid.mpr repeatedPair_runnable] at hrefused
  cases hrefused

end Chains

end LogicalWorks.Graph
