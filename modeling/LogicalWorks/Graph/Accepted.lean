import LogicalWorks.Graph.Plan

/-! What an accepted declaration is, and the plan made of it: no name twice, every need declared
once, and an order that puts each node behind all it needs. -/
namespace LogicalWorks.Graph

def Needs (nodes : List GraphNode) (at_ need : Nat) : Prop :=
  ∃ node needed, nodes[at_]? = some node ∧ nodes[need]? = some needed ∧ needed.name ∈ node.needs

structure Heights (nodes : List GraphNode) (height : Nat → Nat) : Prop where
  stacked : ∀ (at_ : Nat) (node : GraphNode), nodes[at_]? = some node →
    ∃ chain, height at_ = saturatingAdd node.work chain ∧
      (∀ next, Needs nodes next at_ → height next ≤ chain) ∧
      (chain = 0 ∨ ∃ next, Needs nodes next at_ ∧ height next = chain)

structure Accepted (nodes : List GraphNode) : Prop where
  nonempty : nodes ≠ []
  names_nodup : (nodes.map GraphNode.name).Nodup
  declared : ∀ node ∈ nodes, ∀ need ∈ node.needs, need ∈ nodes.map GraphNode.name
  needs_nodup : ∀ node ∈ nodes, node.needs.Nodup
  order : ∃ order, Kahn.Topological (needsNamed nodes) order ∧
    ∀ name ∈ nodes.map GraphNode.name, name ∈ order

variable {nodes : List GraphNode}

theorem nameRefusal_eq_none {seen : List String} (h : nameRefusal seen nodes = none) :
    (nodes.map GraphNode.name).Nodup ∧ ∀ node ∈ nodes, node.name ∉ seen := by
  induction nodes generalizing seen with
  | nil => exact ⟨List.nodup_nil, fun node hmem => (by cases hmem)⟩
  | cons first rest ih =>
    unfold nameRefusal at h
    split at h
    · cases h
    split at h
    · cases h
    rename_i _ hseen
    obtain ⟨hnodup, hrest⟩ := ih h
    refine ⟨?_, ?_⟩
    · rw [List.map_cons, List.nodup_cons]
      refine ⟨?_, hnodup⟩
      intro hmem
      obtain ⟨node, hnode, hname⟩ := List.mem_map.mp hmem
      exact hrest node hnode (List.mem_append_right _ (List.mem_singleton.mpr hname))
    · intro node hmem
      rcases List.mem_cons.mp hmem with rfl | hmem
      · exact hseen
      · exact fun hin => hrest node hmem (List.mem_append_left _ hin)

theorem needRefusal_eq_none {seen : List String} {node : GraphNode}
    (h : needRefusal seen node = none) : ∀ need ∈ node.needs, need ∈ seen := by
  intro need hmem
  have hneed := List.findSome?_eq_none_iff.mp h need hmem
  by_contra hnot
  rw [if_pos hnot] at hneed
  cases hneed

theorem find_name (hnodup : (nodes.map GraphNode.name).Nodup) {node : GraphNode}
    (hmem : node ∈ nodes) : nodes.find? (fun other => other.name = node.name) = some node := by
  induction nodes with
  | nil => cases hmem
  | cons first rest ih =>
    rw [List.map_cons, List.nodup_cons] at hnodup
    rcases List.mem_cons.mp hmem with rfl | hmem
    · simp
    · have hne : first.name ≠ node.name := fun heq =>
        hnodup.1 (heq ▸ List.mem_map.mpr ⟨node, hmem, rfl⟩)
      rw [List.find?_cons_of_neg (by simpa using hne)]
      exact ih hnodup.2 hmem

theorem needsNamed_name (hnodup : (nodes.map GraphNode.name).Nodup) {node : GraphNode}
    (hmem : node ∈ nodes) : needsNamed nodes node.name = node.needs := by
  rw [needsNamed, find_name hnodup hmem]
  rfl

theorem get_outstanding (hnodup : (nodes.map GraphNode.name).Nodup) {node : GraphNode}
    (hmem : node ∈ nodes) : (outstanding nodes).get node.name = some node.needs.length := by
  cases hget : (outstanding nodes).get node.name with
  | none =>
    have hpair : (node.name, node.needs.length) ∈
        nodes.map fun node => (node.name, node.needs.length) := List.mem_map.mpr ⟨node, hmem, rfl⟩
    exact absurd rfl ((Index.get_insertAll_eq_none _ _).mp hget _ hpair)
  | some count =>
    obtain ⟨other, hother, heq⟩ := List.mem_map.mp (Index.mem_of_get_insertAll hget)
    obtain ⟨hname, hcount⟩ := Prod.mk.inj heq
    have hfind := find_name hnodup hother
    rw [hname, find_name hnodup hmem] at hfind
    cases hfind
    rw [← hcount]

theorem mem_waitingFor (hnodup : (nodes.map GraphNode.name).Nodup) (name other : String) :
    other ∈ waitingFor nodes name ↔
      other ∈ nodes.map GraphNode.name ∧ name ∈ needsNamed nodes other := by
  rw [waitingFor, List.mem_map, List.mem_map]
  constructor
  · rintro ⟨node, hnode, rfl⟩
    obtain ⟨hmem, hneeds⟩ := List.mem_filter.mp hnode
    refine ⟨⟨node, hmem, rfl⟩, ?_⟩
    rw [needsNamed_name hnodup hmem]
    exact of_decide_eq_true hneeds
  · rintro ⟨⟨node, hmem, rfl⟩, hneeds⟩
    rw [needsNamed_name hnodup hmem] at hneeds
    exact ⟨node, List.mem_filter.mpr ⟨hmem, decide_eq_true hneeds⟩, rfl⟩

theorem lawful_names (hnodup : (nodes.map GraphNode.name).Nodup) :
    Kahn.Lawful (nodes.map GraphNode.name) (needsNamed nodes) (waitingFor nodes) where
  nodup := hnodup
  below_nodup := fun _ _ => hnodup.sublist (List.filter_sublist.map _)
  mem_below := fun name _ other => mem_waitingFor hnodup name other

theorem mem_sortedNames (name : String) :
    name ∈ sortedNames nodes ↔ name ∈ nodes.map GraphNode.name :=
  (List.perm_insertionSort _ _).mem_iff

theorem sound_namesPass (hnodup : (nodes.map GraphNode.name).Nodup) :
    Kahn.Sound (nodes.map GraphNode.name) (needsNamed nodes) (namesPass nodes) ∧
      (namesPass nodes).ready = [] := by
  refine Kahn.Sound.pass (Kahn.sound_start ?_ ?_ ?_) (lawful_names hnodup) ?_ _ ?_
  · intro name hname
    obtain ⟨node, hmem, rfl⟩ := List.mem_map.mp hname
    rw [get_outstanding hnodup hmem, needsNamed_name hnodup hmem]
  · intro name
    rw [List.mem_reverse, List.mem_filter, mem_sortedNames]
    refine and_congr_right fun hname => ?_
    obtain ⟨node, hmem, rfl⟩ := List.mem_map.mp hname
    rw [get_outstanding hnodup hmem, needsNamed_name hnodup hmem]
    simp
  · exact List.nodup_reverse.mpr
      (((List.perm_insertionSort _ _).nodup_iff.mpr hnodup).filter _)
  · intro count node other hne
    rw [Index.get_erase, if_neg hne]
  · rw [List.length_map, List.length_nil]
    omega

theorem accepted_of_validate (h : validate nodes = .ok ()) : Accepted nodes := by
  unfold validate at h
  split at h
  · cases h
  rename_i hreason
  unfold refusalReason at hreason
  split at hreason
  · cases hreason
  rename_i hempty
  split at hreason
  · cases hreason
  rw [Option.or_eq_none_iff, Option.or_eq_none_iff, Option.map_eq_none_iff] at hreason
  obtain ⟨hname, hneed, hcycle⟩ := hreason
  obtain ⟨hnodup, -⟩ := nameRefusal_eq_none hname
  have hsound := (sound_namesPass hnodup).1
  have htaken : ∀ name ∈ nodes.map GraphNode.name, name ∈ (namesPass nodes).order := by
    intro name hmem
    by_contra hout
    obtain ⟨count, hcount, -⟩ := hsound.counted name hmem hout
    have hnone := List.find?_eq_none.mp hcycle name ((mem_sortedNames name).mpr hmem)
    rw [hcount] at hnone
    exact hnone rfl
  refine ⟨fun hnil => hempty (by rw [hnil]; rfl), hnodup, ?_, ?_,
    (namesPass nodes).order, hsound.topological, htaken⟩
  · intro node hmem need hin
    exact needRefusal_eq_none (List.findSome?_eq_none_iff.mp hneed node hmem) need hin
  · intro node hmem
    rw [← needsNamed_name hnodup hmem]
    exact hsound.needs_nodup _ (htaken _ (List.mem_map.mpr ⟨node, hmem, rfl⟩))

theorem get_nameIndex (hnodup : (nodes.map GraphNode.name).Nodup) (name : String) (at_ : Nat) :
    (nameIndex nodes).get name = some at_ ↔ ∃ node, nodes[at_]? = some node ∧ node.name = name := by
  have hdeclared {position : Nat} (h : (nameIndex nodes).get name = some position) :
      ∃ node, nodes[position]? = some node ∧ node.name = name := by
    obtain ⟨entry, hentry, heq⟩ := List.mem_map.mp (Index.mem_of_get_insertAll h)
    obtain ⟨hname, rfl⟩ := Prod.mk.inj heq
    exact ⟨entry.1, List.mem_zipIdx_iff_getElem?.mp hentry, hname⟩
  refine ⟨hdeclared, ?_⟩
  rintro ⟨node, hnode, rfl⟩
  cases hget : (nameIndex nodes).get node.name with
  | none =>
    have hpair : (node.name, at_) ∈ nodes.zipIdx.map fun entry => (entry.1.name, entry.2) :=
      List.mem_map.mpr ⟨(node, at_), List.mem_zipIdx_iff_getElem?.mpr hnode, rfl⟩
    exact absurd rfl ((Index.get_insertAll_eq_none _ _).mp hget _ hpair)
  | some position =>
    obtain ⟨other, hother, hname⟩ := hdeclared hget
    have hsame : (nodes.map GraphNode.name)[position]? = (nodes.map GraphNode.name)[at_]? := by
      rw [List.getElem?_map, List.getElem?_map, hother, hnode, Option.map_some,
        Option.map_some, hname]
    have hlt : position < (nodes.map GraphNode.name).length := by
      rw [List.length_map]
      exact (List.getElem?_eq_some_iff.mp hother).1
    exact congrArg some ((List.getElem?_inj hlt hnodup).mp hsame)

structure Planned (nodes : List GraphNode) (plan : Plan) : Prop where
  names_eq : plan.names = nodes.map GraphNode.name
  mem_needsOf : ∀ at_ need, need ∈ plan.needsOf at_ ↔ Needs nodes at_ need
  needs_nodup : ∀ at_, (plan.needsOf at_).Nodup
  below_eq : ∀ at_ < nodes.length, plan.below at_ = dependantsOf plan.needs at_
  needs_length : plan.needs.length = nodes.length
  height_eq : plan.height = (indexPass plan.needs).order.reverse.foldl
    (raise (dependantsOf plan.needs)) fun at_ => (nodes[at_]?).map GraphNode.work

theorem resolve_eq_ok {index : Index String Nat} {need : String} {at_ : Nat} :
    resolve index need = .ok at_ ↔ index.get need = some at_ := by
  unfold resolve
  cases index.get need <;> simp

theorem resolved_nodup (hnodup : (nodes.map GraphNode.name).Nodup) {needs : List String}
    {resolved : List Nat}
    (h : List.Forall₂ (fun need at_ => resolve (nameIndex nodes) need = .ok at_) needs resolved)
    (hneeds : needs.Nodup) : resolved.Nodup := by
  induction h with
  | nil => exact List.nodup_nil
  | @cons need at_ needs resolved hfirst hrest ih =>
    obtain ⟨hnot, hneeds⟩ := List.nodup_cons.mp hneeds
    refine List.nodup_cons.mpr ⟨fun hmem => hnot ?_, ih hneeds⟩
    obtain ⟨i, hi, hget⟩ := List.getElem_of_mem hmem
    have hi' : i < needs.length := hrest.length_eq ▸ hi
    have hother := (List.forall₂_iff_get.mp hrest).2 i hi' hi
    rw [List.get_eq_getElem, List.get_eq_getElem, hget, resolve_eq_ok,
      get_nameIndex hnodup] at hother
    rw [resolve_eq_ok, get_nameIndex hnodup] at hfirst
    obtain ⟨node, hnode, rfl⟩ := hfirst
    obtain ⟨other, hsame, hname⟩ := hother
    cases hnode.symm.trans hsame
    rw [hname]
    exact List.getElem_mem hi'

theorem mem_resolved (hnodup : (nodes.map GraphNode.name).Nodup) {needs : List String}
    {resolved : List Nat}
    (h : List.Forall₂ (fun need at_ => resolve (nameIndex nodes) need = .ok at_) needs resolved)
    (at_ : Nat) : at_ ∈ resolved ↔ ∃ node, nodes[at_]? = some node ∧ node.name ∈ needs := by
  induction h with
  | nil => simp
  | @cons need first needs resolved hfirst hrest ih =>
    rw [resolve_eq_ok, get_nameIndex hnodup] at hfirst
    obtain ⟨declared, hdeclared, rfl⟩ := hfirst
    rw [List.mem_cons, ih]
    constructor
    · rintro (rfl | ⟨node, hnode, hmem⟩)
      · exact ⟨declared, hdeclared, List.mem_cons_self⟩
      · exact ⟨node, hnode, List.mem_cons_of_mem _ hmem⟩
    · rintro ⟨node, hnode, hmem⟩
      rcases List.mem_cons.mp hmem with hname | hmem
      · have hget := (get_nameIndex hnodup declared.name at_).mpr ⟨node, hnode, hname⟩
        rw [(get_nameIndex hnodup declared.name first).mpr ⟨declared, hdeclared, rfl⟩] at hget
        exact .inl (Option.some.inj hget).symm
      · exact .inr ⟨node, hnode, hmem⟩

theorem Accepted.resolves (h : Accepted nodes) : ∃ needs,
    nodes.mapM (fun node => node.needs.mapM (resolve (nameIndex nodes))) = .ok needs := by
  refine exists_mapM fun node hmem => exists_mapM fun need hneed => ?_
  obtain ⟨declared, hdeclared, hname⟩ := List.mem_map.mp (h.declared node hmem need hneed)
  obtain ⟨at_, hat⟩ := List.getElem?_of_mem hdeclared
  exact ⟨at_, resolve_eq_ok.mpr ((get_nameIndex h.names_nodup need at_).mpr ⟨declared, hat, hname⟩)⟩

theorem Accepted.planned (h : Accepted nodes) : ∃ plan, Plan.of nodes = .ok plan ∧
    Planned nodes plan := by
  obtain ⟨needs, hneeds⟩ := h.resolves
  have hall := mapM_eq_ok.mp hneeds
  have hlength := hall.length_eq
  have hresolved {at_ : Nat} {node : GraphNode} (hnode : nodes[at_]? = some node) :
      ∃ resolved, needs[at_]? = some resolved ∧ List.Forall₂
        (fun need at_ => resolve (nameIndex nodes) need = .ok at_) node.needs resolved := by
    obtain ⟨hlt, hget⟩ := List.getElem?_eq_some_iff.mp hnode
    have hlt' : at_ < needs.length := hlength ▸ hlt
    have hnow := (List.forall₂_iff_get.mp hall).2 at_ hlt hlt'
    rw [List.get_eq_getElem, hget] at hnow
    exact ⟨needs[at_], List.getElem?_eq_getElem hlt', mapM_eq_ok.mp hnow⟩
  have hout {at_ : Nat} (hnone : nodes[at_]? = none) : needs[at_]? = none := by
    rw [List.getElem?_eq_none_iff] at hnone ⊢
    exact hlength ▸ hnone
  refine ⟨⟨nodes.map GraphNode.name, needs, (List.range nodes.length).map (dependantsOf needs),
    (indexPass needs).order.reverse.foldl (raise (dependantsOf needs))
      fun at_ => (nodes[at_]?).map GraphNode.work⟩, ?_, ?_⟩
  · unfold Plan.of
    rw [hneeds]
    rfl
  refine ⟨rfl, ?_, ?_, ?_, hlength.symm, rfl⟩
  · intro at_ need
    unfold Plan.needsOf
    cases hnode : nodes[at_]? with
    | none =>
      rw [hout hnode]
      constructor
      · intro hmem
        cases hmem
      · rintro ⟨node, needed, hsome, -⟩
        rw [hnode] at hsome
        cases hsome
    | some node =>
      obtain ⟨resolved, hget, hforall⟩ := hresolved hnode
      rw [hget, Option.getD_some, mem_resolved h.names_nodup hforall]
      constructor
      · rintro ⟨needed, hneeded, hmem⟩
        exact ⟨node, needed, hnode, hneeded, hmem⟩
      · rintro ⟨other, needed, hsome, hneeded, hmem⟩
        cases hnode.symm.trans hsome
        exact ⟨needed, hneeded, hmem⟩
  · intro at_
    unfold Plan.needsOf
    cases hnode : nodes[at_]? with
    | none =>
      rw [hout hnode]
      exact List.nodup_nil
    | some node =>
      obtain ⟨resolved, hget, hforall⟩ := hresolved hnode
      rw [hget, Option.getD_some]
      exact resolved_nodup h.names_nodup hforall (h.needs_nodup node (List.mem_of_getElem? hnode))
  · intro at_ hlt
    unfold Plan.below
    rw [List.getElem?_map, List.getElem?_range hlt]
    rfl

theorem Needs.lt {at_ need : Nat} (h : Needs nodes at_ need) :
    at_ < nodes.length ∧ need < nodes.length := by
  obtain ⟨_, _, hnode, hneeded, -⟩ := h
  exact ⟨(List.getElem?_eq_some_iff.mp hnode).1, (List.getElem?_eq_some_iff.mp hneeded).1⟩

section Planned

variable {plan : Plan}

theorem Planned.mem_dependantsOf (h : Planned nodes plan) (of other : Nat) :
    other ∈ dependantsOf plan.needs of ↔ of ∈ plan.needsOf other := by
  unfold dependantsOf
  rw [List.mem_flatMap]
  constructor
  · rintro ⟨at_, -, hmem⟩
    obtain ⟨hcount, rfl⟩ := List.mem_replicate.mp hmem
    exact List.count_pos_iff.mp (Nat.pos_of_ne_zero hcount)
  · intro hmem
    refine ⟨other, ?_, List.mem_replicate.mpr ⟨?_, rfl⟩⟩
    · rw [List.mem_range, h.needs_length]
      exact ((h.mem_needsOf other of).mp hmem).lt.1
    · exact (List.count_pos_iff.mpr hmem).ne'

theorem Planned.mem_below (h : Planned nodes plan) {of : Nat} (hof : of < nodes.length)
    (other : Nat) : other ∈ plan.below of ↔ Needs nodes other of := by
  rw [h.below_eq of hof, h.mem_dependantsOf, h.mem_needsOf]

theorem Planned.dependantsOf_nodup (h : Planned nodes plan) (of : Nat) :
    (dependantsOf plan.needs of).Nodup := by
  unfold dependantsOf
  rw [List.nodup_flatMap]
  refine ⟨fun at_ _ => ?_, ?_⟩
  · exact List.nodup_replicate.mpr (List.nodup_iff_count_le_one.mp (h.needs_nodup at_) of)
  · refine List.nodup_range.imp fun hne other hleft hright => hne ?_
    exact (List.mem_replicate.mp hleft).2.symm.trans (List.mem_replicate.mp hright).2

theorem Planned.lawful (h : Planned nodes plan) :
    Kahn.Lawful (List.range nodes.length) plan.needsOf (dependantsOf plan.needs) where
  nodup := List.nodup_range
  below_nodup := fun of _ => h.dependantsOf_nodup of
  mem_below := by
    intro of _ other
    rw [h.mem_dependantsOf, List.mem_range, iff_and_self]
    exact fun hmem => ((h.mem_needsOf other of).mp hmem).lt.1

theorem Planned.get_unmet (h : Planned nodes plan) {at_ : Nat} (hlt : at_ < nodes.length) :
    (plan.needs[at_]?).map List.length = some (plan.needsOf at_).length := by
  unfold Plan.needsOf
  rw [List.getElem?_eq_getElem (h.needs_length ▸ hlt)]
  rfl

theorem Planned.sound (h : Planned nodes plan) :
    Kahn.Sound (List.range nodes.length) plan.needsOf (indexPass plan.needs) ∧
      (indexPass plan.needs).ready = [] := by
  refine Kahn.Sound.pass (Kahn.sound_start ?_ ?_ ?_) h.lawful (fun _ _ _ _ => rfl) _ ?_
  · intro at_ hmem
    exact h.get_unmet (List.mem_range.mp hmem)
  · intro at_
    rw [List.mem_reverse, List.mem_filter, h.needs_length]
    refine and_congr_right fun hmem => ?_
    rw [decide_eq_true_eq, ← List.length_eq_zero_iff]
    change (plan.needs[at_]?).map List.length = some 0 ↔ _
    rw [h.get_unmet (List.mem_range.mp hmem), Option.some.injEq]
  · exact List.nodup_reverse.mpr (List.nodup_range.filter _)
  · rw [List.length_range, List.length_nil, h.needs_length]
    omega

theorem Planned.topological (h : Planned nodes plan) :
    Kahn.Topological plan.needsOf (indexPass plan.needs).order :=
  h.sound.1.topological

theorem Accepted.index_order (ha : Accepted nodes) (h : Planned nodes plan) : ∃ order,
    Kahn.Topological plan.needsOf order ∧ (∀ at_ ∈ order, at_ < nodes.length) ∧
      ∀ at_ < nodes.length, at_ ∈ order := by
  obtain ⟨names, htopological, hcomplete⟩ := ha.order
  refine ⟨names.filterMap (nameIndex nodes).get, ?_, ?_, ?_⟩
  · intro before at_ after hcut need hneed
    obtain ⟨left, right, rfl, hleft, hright⟩ := List.filterMap_eq_append_iff.mp hcut
    obtain ⟨skipped, name, others, rfl, hskipped, hname, -⟩ := List.filterMap_eq_cons_iff.mp hright
    obtain ⟨node, needed, hnode, hneeded, hmem⟩ := (h.mem_needsOf at_ need).mp hneed
    obtain ⟨other, hother, rfl⟩ := (get_nameIndex ha.names_nodup name at_).mp hname
    cases hnode.symm.trans hother
    have hearlier := htopological (left ++ skipped) node.name others (by rw [List.append_assoc])
      needed.name (by
        rw [needsNamed_name ha.names_nodup (List.mem_of_getElem? hnode)]
        exact hmem)
    have hget := (get_nameIndex ha.names_nodup needed.name need).mpr ⟨needed, hneeded, rfl⟩
    rw [← hleft, List.mem_filterMap]
    refine ⟨needed.name, (List.mem_append.mp hearlier).resolve_right fun hin => ?_, hget⟩
    rw [hskipped needed.name hin] at hget
    cases hget
  · intro at_ hmem
    obtain ⟨name, -, hget⟩ := List.mem_filterMap.mp hmem
    obtain ⟨node, hnode, -⟩ := (get_nameIndex ha.names_nodup name at_).mp hget
    exact (List.getElem?_eq_some_iff.mp hnode).1
  · intro at_ hlt
    have hnode := List.getElem?_eq_getElem hlt
    refine List.mem_filterMap.mpr ⟨nodes[at_].name, hcomplete _ ?_, ?_⟩
    · exact List.mem_map.mpr ⟨_, List.getElem_mem hlt, rfl⟩
    · exact (get_nameIndex ha.names_nodup _ at_).mpr ⟨_, hnode, rfl⟩

theorem Accepted.ordered (ha : Accepted nodes) (h : Planned nodes plan) :
    ∀ at_ < nodes.length, at_ ∈ (indexPass plan.needs).order := by
  obtain ⟨order, htopological, hin, hcomplete⟩ := ha.index_order h
  intro at_ hlt
  refine h.sound.1.complete h.sound.2 htopological ?_ (fun at_ _ => h.needs_nodup at_) at_
    (hcomplete at_ hlt)
  exact fun at_ hmem => List.mem_range.mpr (hin at_ hmem)

theorem get_raise {below : Nat → List Nat} {height : Index Nat Nat} (at_ other : Nat) :
    (raise below height at_).get other = if other = at_ then
      (height.get at_).map fun own => saturatingAdd own (heaviest height (below at_))
    else height.get other := by
  unfold raise
  cases hget : height.get at_ with
  | none =>
    by_cases heq : other = at_
    · rw [if_pos heq, heq]
      exact hget
    · rw [if_neg heq]
  | some own => exact Index.get_insert _ _ _ _

theorem heaviest_congr {left right : Index Nat Nat} {nodes : List Nat}
    (h : ∀ node ∈ nodes, left.get node = right.get node) :
    heaviest left nodes = heaviest right nodes := by
  unfold heaviest
  rw [List.filterMap_congr h]

theorem get_raiseAll {below : Nat → List Nat} {work : Index Nat Nat} {order : List Nat} {at_ : Nat}
    (h : at_ ∉ order) : (order.foldr (fun next height => raise below height next) work).get at_ =
      work.get at_ := by
  induction order with
  | nil => rfl
  | cons first rest ih =>
    rw [List.mem_cons, not_or] at h
    rw [List.foldr_cons, get_raise, if_neg h.1, ih h.2]

/-- Raised from the last node to the first, each node stands on the heaviest chain below it. -/
theorem get_raised {below : Nat → List Nat} {work : Index Nat Nat} {order : List Nat}
    (hnodup : order.Nodup) (horder : ∀ left at_ right, order = left ++ at_ :: right →
      ∀ next ∈ below at_, next ∈ right) {at_ : Nat} (hmem : at_ ∈ order) :
    (order.foldr (fun next height => raise below height next) work).get at_ =
      (work.get at_).map fun own => saturatingAdd own
        (heaviest (order.foldr (fun next height => raise below height next) work) (below at_)) := by
  induction order with
  | nil => cases hmem
  | cons first rest ih =>
    obtain ⟨hfirst, hrest⟩ := List.nodup_cons.mp hnodup
    have hlater : ∀ left at_ right, rest = left ++ at_ :: right →
        ∀ next ∈ below at_, next ∈ right := by
      intro left at_ right hcut
      exact horder (first :: left) at_ right (by rw [hcut]; rfl)
    have hsame {other : Nat} (hother : other ∈ first :: rest) :
        heaviest ((first :: rest).foldr (fun next height => raise below height next) work)
          (below other) =
        heaviest (rest.foldr (fun next height => raise below height next) work) (below other) := by
      refine heaviest_congr fun next hnext => ?_
      rw [List.foldr_cons, get_raise, if_neg]
      rintro rfl
      obtain ⟨left, right, hcut⟩ := List.append_of_mem hother
      have hright := horder left other right hcut next hnext
      cases left with
      | nil =>
        obtain ⟨-, rfl⟩ := List.cons.inj hcut
        exact hfirst hright
      | cons _ left =>
        obtain ⟨-, rfl⟩ := List.cons.inj hcut
        exact hfirst (List.mem_append_right _ (List.mem_cons_of_mem _ hright))
    rw [hsame hmem, List.foldr_cons, get_raise]
    by_cases hat : at_ = first
    · subst hat
      rw [if_pos rfl, get_raiseAll hfirst]
    · rw [if_neg hat]
      exact ih hrest hlater ((List.mem_cons.mp hmem).resolve_left hat)

theorem foldl_max (values : List Nat) (least : Nat) :
    least ≤ values.foldl max least ∧ (∀ value ∈ values, value ≤ values.foldl max least) ∧
      (values.foldl max least = least ∨ values.foldl max least ∈ values) := by
  induction values generalizing least with
  | nil => simp
  | cons first rest ih =>
    rw [List.foldl_cons]
    obtain ⟨hleast, hall, hone⟩ := ih (max least first)
    refine ⟨by omega, ?_, ?_⟩
    · intro value hmem
      rcases List.mem_cons.mp hmem with rfl | hmem
      · omega
      · exact hall value hmem
    · rcases hone with hone | hone
      · rw [hone, List.mem_cons]
        omega
      · exact .inr (List.mem_cons_of_mem _ hone)

def Plan.heightOf (plan : Plan) (at_ : Nat) : Nat := (plan.height.get at_).getD 0

theorem Accepted.get_height (ha : Accepted nodes) (h : Planned nodes plan) {at_ : Nat}
    {node : GraphNode} (hnode : nodes[at_]? = some node) :
    plan.height.get at_ = some (plan.heightOf at_) ∧
      plan.heightOf at_ = saturatingAdd node.work
        (heaviest plan.height (dependantsOf plan.needs at_)) := by
  have hlt := (List.getElem?_eq_some_iff.mp hnode).1
  have hbelow : ∀ left at_ right, (indexPass plan.needs).order = left ++ at_ :: right →
      ∀ next ∈ dependantsOf plan.needs at_, next ∈ right := by
    intro left at_ right hcut next hnext
    have hneed := (h.mem_dependantsOf at_ next).mp hnext
    exact h.topological.behind h.sound.1.order_nodup hcut
      (ha.ordered h next ((h.mem_needsOf next at_).mp hneed).lt.1) hneed
  have hget := @get_raised _ (fun at_ => (nodes[at_]?).map GraphNode.work) _
    h.sound.1.order_nodup hbelow _ (ha.ordered h at_ hlt)
  have hheight : plan.height = (indexPass plan.needs).order.foldr
      (fun next height => raise (dependantsOf plan.needs) height next)
      fun at_ => (nodes[at_]?).map GraphNode.work :=
    h.height_eq.trans List.foldl_reverse
  rw [← hheight] at hget
  have hwork : Index.get (fun at_ => (nodes[at_]?).map GraphNode.work) at_ = some node.work := by
    change (nodes[at_]?).map GraphNode.work = _
    rw [hnode]
    rfl
  rw [hwork, Option.map_some] at hget
  unfold Plan.heightOf
  rw [hget]
  exact ⟨rfl, rfl⟩

theorem Accepted.heights (ha : Accepted nodes) (h : Planned nodes plan) :
    Heights nodes plan.heightOf where
  stacked := by
    intro at_ node hnode
    have hheight {next : Nat} (hlt : next < nodes.length) :
        plan.height.get next = some (plan.heightOf next) :=
      (ha.get_height h (List.getElem?_eq_getElem hlt)).1
    have hneeds (next : Nat) : next ∈ dependantsOf plan.needs at_ ↔ Needs nodes next at_ := by
      rw [h.mem_dependantsOf, h.mem_needsOf]
    obtain ⟨-, hall, hone⟩ :=
      foldl_max ((dependantsOf plan.needs at_).filterMap plan.height.get) 0
    refine ⟨_, (ha.get_height h hnode).2, ?_, ?_⟩
    · intro next hnext
      refine hall _ (List.mem_filterMap.mpr ⟨next, (hneeds next).mpr hnext, ?_⟩)
      exact hheight hnext.lt.1
    · refine hone.imp_right fun hmem => ?_
      obtain ⟨next, hnext, hget⟩ := List.mem_filterMap.mp hmem
      rw [hneeds] at hnext
      rw [hheight hnext.lt.1] at hget
      exact ⟨next, hnext, Option.some.inj hget⟩

end Planned

end LogicalWorks.Graph
