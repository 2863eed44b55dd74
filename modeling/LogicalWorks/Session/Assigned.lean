import LogicalWorks.Session.Validate
import Mathlib.Algebra.BigOperators.Group.List.Basic
import Mathlib.Algebra.Group.Action.Defs
import Mathlib.Algebra.Order.BigOperators.Group.List
import Mathlib.Algebra.Order.Ring.Nat
import Mathlib.Data.List.Dedup

/-! The worklist comes to rest: no node knows more than each way to it passes on. -/
namespace LogicalWorks.Worklist

variable {ν ω : Type} [DecidableEq ν] [DecidableEq ω]

def Settled (successors : ν → List ν) (pass : ν → List ω → List ω) (known : Index ν (List ω))
    (node : ν) : Prop :=
  ∀ incoming, known.get node = some incoming → ∀ target ∈ successors node, ∀ names,
    known.get target = some names → ∀ name ∈ names, name ∈ pass node incoming

def size (domain : List ν) (known : Index ν (List ω)) : Nat :=
  (domain.map fun node => ((known.get node).getD []).length).sum

variable {successors : ν → List ν} {pass : ν → List ω → List ω} {work : Work ν ω}
  {domain : List ν}

def Within (before after : Index ν (List ω)) : Prop :=
  ∀ node, ((after.get node).isSome ↔ (before.get node).isSome) ∧
    ∀ names, after.get node = some names →
      ∃ earlier, before.get node = some earlier ∧ ∀ name ∈ names, name ∈ earlier

omit [DecidableEq ν] [DecidableEq ω] in
theorem Within.refl (known : Index ν (List ω)) : Within known known :=
  fun _ => ⟨Iff.rfl, fun names hget => ⟨names, hget, fun _ hmem => hmem⟩⟩

omit [DecidableEq ν] [DecidableEq ω] in
theorem Within.trans {first second third : Index ν (List ω)} (h : Within first second)
    (hnext : Within second third) : Within first third := by
  intro node
  refine ⟨(hnext node).1.trans (h node).1, fun names hget => ?_⟩
  obtain ⟨middle, hmiddle, hsub⟩ := (hnext node).2 names hget
  obtain ⟨earlier, hearlier, hsup⟩ := (h node).2 middle hmiddle
  exact ⟨earlier, hearlier, fun name hmem => hsup name (hsub name hmem)⟩

theorem get_retain (outgoing : List ω) (work : Work ν ω) (target node : ν) :
    (retain outgoing work target).known.get node = if node = target then
      (work.known.get node).map (List.filter (· ∈ outgoing)) else work.known.get node := by
  unfold retain
  by_cases heq : node = target
  · subst heq
    rw [if_pos rfl]
    cases hget : work.known.get node with
    | none => exact hget
    | some names => exact Index.get_insert_self _ _ _
  · rw [if_neg heq]
    cases hget : work.known.get target with
    | none => rfl
    | some names => exact (Index.get_insert _ _ _ _).trans (if_neg heq)

theorem within_retain (outgoing : List ω) (work : Work ν ω) (target : ν) :
    Within work.known (retain outgoing work target).known := by
  intro node
  rw [get_retain]
  by_cases heq : node = target
  · rw [if_pos heq]
    refine ⟨by rw [Option.isSome_map], fun names hget => ?_⟩
    obtain ⟨earlier, hearlier, rfl⟩ := Option.map_eq_some_iff.mp hget
    exact ⟨earlier, hearlier, fun name hmem => (List.mem_filter.mp hmem).1⟩
  · rw [if_neg heq]
    exact Within.refl _ node

/-- A node that loses a name is looked at again, and what waited still does. -/
theorem mem_pending_retain (outgoing : List ω) (work : Work ν ω) (target node : ν) :
    (node ∈ work.pending → node ∈ (retain outgoing work target).pending) ∧
      (node ∈ (retain outgoing work target).pending ∨
        (retain outgoing work target).known.get node = work.known.get node) := by
  rw [get_retain]
  unfold retain
  cases hget : work.known.get target with
  | none =>
      refine ⟨id, .inr ?_⟩
      split
      · rename_i heq
        rw [heq, hget]
        rfl
      · rfl
  | some names =>
      by_cases hsame : (names.filter (· ∈ outgoing)).length = names.length
      · simp only [hsame, if_true]
        refine ⟨id, .inr ?_⟩
        split
        · rename_i heq
          rw [heq, hget, Option.map_some, List.filter_sublist.eq_of_length hsame]
        · rfl
      · simp only [hsame, if_false]
        refine ⟨List.mem_append_left _, ?_⟩
        by_cases heq : node = target
        · exact .inl (List.mem_append_right _ (List.mem_singleton.mpr heq))
        · exact .inr (if_neg heq)

/-- Taking a name away makes up for looking at the node again. -/
theorem size_retain (outgoing : List ω) (work : Work ν ω) (target : ν) (hnodup : domain.Nodup)
    (hdomain : ∀ node, (work.known.get node).isSome → node ∈ domain) :
    size domain (retain outgoing work target).known + (retain outgoing work target).pending.length ≤
      size domain work.known + work.pending.length := by
  cases hget : work.known.get target with
  | none =>
      have hsame : retain outgoing work target = work := by
        unfold retain
        rw [hget]
      exact Nat.le_of_eq (by rw [hsame])
  | some names =>
      have hmem := hdomain target (by rw [hget]; rfl)
      have hrest : (domain.erase target).map (fun node =>
            (((retain outgoing work target).known.get node).getD []).length) =
          (domain.erase target).map fun node => ((work.known.get node).getD []).length := by
        refine List.map_congr_left fun node hnode => ?_
        rw [get_retain, if_neg (hnodup.mem_erase_iff.mp hnode).1]
      have hsize (known : Index ν (List ω)) : size domain known =
          ((known.get target).getD []).length +
            ((domain.erase target).map fun node => ((known.get node).getD []).length).sum :=
        (List.sum_map_erase (fun node => ((known.get node).getD []).length) hmem).symm
      rw [hsize, hsize work.known, hrest, get_retain, if_pos rfl, hget]
      have hle := List.length_filter_le (· ∈ outgoing) names
      unfold retain
      rw [hget]
      by_cases hsame : (names.filter (· ∈ outgoing)).length = names.length
      · simp only [hsame, if_true, Option.map_some, Option.getD_some]
        omega
      · simp only [hsame, if_false, Option.map_some, Option.getD_some, List.length_append,
          List.length_singleton]
        omega

theorem foldl_retain (outgoing : List ω) (targets : List ν) (work : Work ν ω)
    (hnodup : domain.Nodup) (hdomain : ∀ node, (work.known.get node).isSome → node ∈ domain) :
    Within work.known (targets.foldl (retain outgoing) work).known ∧
      (∀ node, node ∈ work.pending → node ∈ (targets.foldl (retain outgoing) work).pending) ∧
      (∀ node, node ∈ (targets.foldl (retain outgoing) work).pending ∨
        (targets.foldl (retain outgoing) work).known.get node = work.known.get node) ∧
      (∀ target ∈ targets, ∀ names,
        (targets.foldl (retain outgoing) work).known.get target = some names →
          ∀ name ∈ names, name ∈ outgoing) ∧
      size domain (targets.foldl (retain outgoing) work).known +
        (targets.foldl (retain outgoing) work).pending.length ≤
          size domain work.known + work.pending.length := by
  induction targets generalizing work with
  | nil => exact ⟨Within.refl _, fun _ => id, fun _ => .inr rfl, fun _ hmem => (by cases hmem),
      Nat.le_refl _⟩
  | cons first rest ih =>
      have hwithin := within_retain outgoing work first
      have hmem := mem_pending_retain outgoing work first
      obtain ⟨hrest, hkept, hchanged, htargets, hsize⟩ := ih (retain outgoing work first)
        fun node hsome => hdomain node ((hwithin node).1.mp hsome)
      rw [List.foldl_cons]
      refine ⟨hwithin.trans hrest, fun node hin => hkept node ((hmem node).1 hin), ?_, ?_,
        Nat.le_trans hsize (size_retain outgoing work first hnodup hdomain)⟩
      · intro node
        rcases hchanged node with hin | heq
        · exact .inl hin
        · exact (hmem node).2.imp (hkept node) heq.trans
      · intro target htarget names hget
        rcases List.mem_cons.mp htarget with rfl | htarget
        · obtain ⟨earlier, hearlier, hsub⟩ := (hrest target).2 names hget
          rw [get_retain, if_pos rfl] at hearlier
          obtain ⟨before, -, rfl⟩ := Option.map_eq_some_iff.mp hearlier
          exact fun name hname => of_decide_eq_true (List.mem_filter.mp (hsub name hname)).2
        · exact htargets target htarget names hget

theorem visit_settles {node : ν} {rest : List ν} (hpending : work.pending = node :: rest)
    (hnodup : domain.Nodup) (hdomain : ∀ node, (work.known.get node).isSome → node ∈ domain)
    (h : ∀ other, other ∉ work.pending → Settled successors pass work.known other) :
    Within work.known (visit successors pass work node rest).known ∧
      (∀ other, other ∉ (visit successors pass work node rest).pending →
        Settled successors pass (visit successors pass work node rest).known other) ∧
      size domain (visit successors pass work node rest).known +
        (visit successors pass work node rest).pending.length <
          size domain work.known + work.pending.length := by
  unfold visit
  cases hget : work.known.get node with
  | none =>
      refine ⟨Within.refl _, fun other hother => ?_, ?_⟩
      · by_cases heq : other = node
        · intro incoming hincoming
          rw [heq] at hincoming
          change work.known.get node = _ at hincoming
          rw [hget] at hincoming
          cases hincoming
        · refine h other ?_
          rw [hpending, List.mem_cons, not_or]
          exact ⟨heq, hother⟩
      · simp only [hpending, List.length_cons]
        omega
  | some incoming =>
      obtain ⟨hwithin, hkept, hchanged, htargets, hsize⟩ := foldl_retain (pass node incoming)
        (successors node) { work with pending := rest } hnodup hdomain
      refine ⟨hwithin, fun other hother => ?_, ?_⟩
      · have hsame := (hchanged other).resolve_left hother
        intro known hknown target htarget names hnames name hname
        rw [hsame] at hknown
        by_cases heq : other = node
        · subst heq
          cases hget.symm.trans hknown
          exact htargets target htarget names hnames name hname
        · have hsettled : Settled successors pass work.known other := by
            refine h other ?_
            rw [hpending, List.mem_cons, not_or]
            exact ⟨heq, fun hin => hother (hkept other hin)⟩
          obtain ⟨earlier, hearlier, hsub⟩ := (hwithin target).2 names hnames
          exact hsettled known hknown target htarget earlier hearlier name (hsub name hname)
      · rw [hpending, List.length_cons]
        exact Nat.lt_of_le_of_lt hsize (by simp only; omega)

theorem drain_settles (hnodup : domain.Nodup)
    (hdomain : ∀ node, (work.known.get node).isSome → node ∈ domain)
    (h : ∀ other, other ∉ work.pending → Settled successors pass work.known other) {fuel : Nat}
    (hfuel : size domain work.known + work.pending.length ≤ fuel) :
    Within work.known (drain successors pass fuel work).known ∧
      ∀ node, Settled successors pass (drain successors pass fuel work).known node := by
  induction fuel generalizing work with
  | zero =>
      have hnil : work.pending = [] := List.eq_nil_of_length_eq_zero (by omega)
      refine ⟨Within.refl _, fun node => h node ?_⟩
      rw [hnil]
      exact List.not_mem_nil
  | succ fuel ih =>
      unfold drain
      cases hpending : work.pending with
      | nil =>
          refine ⟨Within.refl _, fun node => h node ?_⟩
          rw [hpending]
          exact List.not_mem_nil
      | cons node rest =>
          obtain ⟨hwithin, hsettled, hsize⟩ := visit_settles hpending hnodup hdomain h
          obtain ⟨hrest, hall⟩ := ih (fun other hsome => hdomain other ((hwithin other).1.mp hsome))
            hsettled (by omega)
          exact ⟨hwithin.trans hrest, hall⟩

end LogicalWorks.Worklist

/-! What an accepted document is to a walk: at each node every variable it reads is set, and every
way out leads to a node of the document. -/
namespace LogicalWorks.Session

theorem mem_rows_of_get {α : Type} {table : Table Text α} {key : Text} {value : α}
    (h : table.get key = some value) : (key, value) ∈ table.rows := by
  unfold Table.get at h
  induction hrows : table.rows generalizing table with
  | nil =>
    rw [hrows] at h
    cases h
  | cons row rest ih =>
    rw [hrows, Table.find] at h
    split at h
    · rename_i hkey
      cases h
      rw [← hkey]
      exact List.mem_cons_self
    · exact List.mem_cons_of_mem _ (@ih ⟨rest⟩ h rfl)

/-- The variables set at a node whatever way led there. -/
def known (spec : FlowSpec) (node : Text) : List Text := ((available spec).get node).getD []

theorem get_initially (spec : FlowSpec) (node : Text) : (initially spec).get node =
    if node = spec.entry then some []
    else if (spec.nodes.get node).isSome then some (keys spec.vars) else none := rfl

theorem initially_isSome {spec : FlowSpec} (hentry : (spec.nodes.get spec.entry).isSome)
    (node : Text) : ((initially spec).get node).isSome ↔ (spec.nodes.get node).isSome := by
  rw [get_initially]
  split
  · rename_i heq
    rw [heq]
    exact iff_of_true rfl hentry
  · split <;> simp_all

theorem length_initially_le (spec : FlowSpec) (node : Text) :
    (((initially spec).get node).getD []).length ≤ spec.vars.rows.length := by
  rw [get_initially]
  split
  · exact Nat.zero_le _
  · split
    · exact Nat.le_of_eq (List.length_map _)
    · exact Nat.zero_le _

/-- The fuel of the walk over the document is enough. -/
theorem available_settles {spec : FlowSpec} (hentry : (spec.nodes.get spec.entry).isSome) :
    Worklist.Within (initially spec) (available spec) ∧
      ∀ node, Worklist.Settled (successorsOf spec) (setBehind spec) (available spec) node := by
  have hdomain : ∀ node, ((initially spec).get node).isSome → node ∈ keys spec.nodes :=
    fun node hsome => Table.mem_keys.mpr ((initially_isSome hentry node).mp hsome)
  have hsize : Worklist.size (keys spec.nodes).dedup (initially spec) ≤
      spec.nodes.rows.length * spec.vars.rows.length := by
    refine Nat.le_trans (List.sum_le_card_nsmul _ spec.vars.rows.length ?_) ?_
    · intro count hcount
      obtain ⟨node, -, rfl⟩ := List.mem_map.mp hcount
      exact length_initially_le spec node
    · rw [List.length_map, smul_eq_mul]
      exact Nat.mul_le_mul_right _ ((List.dedup_sublist _).length_le.trans_eq (List.length_map _))
  refine Worklist.drain_settles (List.nodup_dedup _)
    (fun node hsome => List.mem_dedup.mpr (hdomain node hsome)) (fun node hnode => ?_) ?_
  · intro incoming hincoming
    exact absurd (hdomain node (by rw [hincoming]; rfl)) hnode
  · have hkeys : (keys spec.nodes).length = spec.nodes.rows.length := List.length_map _
    simp only [hkeys]
    omega

def Leads (spec : FlowSpec) (names : List Text) (target : Text) : Prop :=
  (spec.nodes.get target).isSome ∧ ∀ name ∈ known spec target, name ∈ names

theorem Leads.mono {spec : FlowSpec} {names more : List Text} {target : Text}
    (h : Leads spec names target) (hmore : ∀ name ∈ names, name ∈ more) : Leads spec more target :=
  ⟨h.1, fun name hname => hmore name (h.2 name hname)⟩

theorem available_isSome {spec : FlowSpec} (hentry : (spec.nodes.get spec.entry).isSome)
    (node : Text) : ((available spec).get node).isSome ↔ (spec.nodes.get node).isSome :=
  ((available_settles hentry).1 node).1.trans (initially_isSome hentry node)

theorem leads_entry {spec : FlowSpec} (hentry : (spec.nodes.get spec.entry).isSome) :
    Leads spec [] spec.entry := by
  refine ⟨hentry, fun name hname => ?_⟩
  obtain ⟨names, hnames⟩ := Option.isSome_iff_exists.mp ((available_isSome hentry _).mpr hentry)
  obtain ⟨earlier, hearlier, hsub⟩ := ((available_settles hentry).1 _).2 names hnames
  rw [get_initially, if_pos rfl] at hearlier
  cases hearlier
  rw [known, hnames] at hname
  exact hsub name hname

theorem leads_successor {spec : FlowSpec} (hentry : (spec.nodes.get spec.entry).isSome)
    {node target : Text} {kind : NodeKind} (hkind : spec.nodes.get node = some kind)
    (htarget : (spec.nodes.get target).isSome) (hmem : target ∈ successorTargets spec node kind) :
    Leads spec (setBehind spec node (known spec node)) target := by
  refine ⟨htarget, fun name hname => ?_⟩
  obtain ⟨incoming, hincoming⟩ := Option.isSome_iff_exists.mp
    ((available_isSome hentry node).mpr (by rw [hkind]; rfl))
  obtain ⟨names, hnames⟩ := Option.isSome_iff_exists.mp ((available_isSome hentry _).mpr htarget)
  have hsuccessor : target ∈ successorsOf spec node := by rwa [successorsOf, hkind]
  rw [known, hnames] at hname
  rw [known, hincoming]
  exact (available_settles hentry).2 node incoming hincoming target hsuccessor names hnames name
    hname

def Readable (names : List Text) (template : Text) : Prop :=
  ∃ parts, compile template = .ok parts ∧ ∀ name, .variable_ name ∈ parts → name ∈ names

def NodeSound (spec : FlowSpec) (limits : ResourceLimits) (node : Text) : NodeKind → Prop
  | .say text => Readable (known spec node) text ∧
      ∃ target, (spec.edgeTargets node).head? = some target ∧ Leads spec (known spec node) target
  | .ask var options routes => ∀ option ∈ options, ∃ target declared value,
      routes.get option = some target ∧ Leads spec (var :: known spec node) target ∧
        spec.vars.get var = some declared ∧ declared.decodeAnswer option = .ok value ∧
          value.renderedBytes ≤ limits.get .value
  | .branch _ when then_ otherwise => (∀ name ∈ predicateVariables when, name ∈ known spec node) ∧
      Leads spec (known spec node) then_ ∧ Leads spec (known spec node) otherwise
  | .refer _ text => Readable (known spec node) text
  | .route dispatch fallback =>
      Leads spec (known spec node) dispatch ∧ Leads spec (known spec node) fallback
  | .handoff _ | .end_ => True

theorem declared_of_literalBytes {spec : FlowSpec} {node : Text} {limit : Nat}
    {parts : List TemplatePart} {total size : Nat}
    (h : literalBytes spec node limit parts total = .ok size) {name : Text}
    (hname : .variable_ name ∈ parts) : (spec.vars.get name).isSome := by
  fun_induction literalBytes spec node limit parts total with
  | case1 => cases hname
  | case2 => cases h
  | case3 text rest total more _ ih =>
    exact ih h ((List.mem_cons.mp hname).resolve_left (by rintro ⟨⟩))
  | case4 other rest total ih =>
    simp only [bind_eq_ok, require_eq_ok] at h
    obtain ⟨-, hdeclared, hrest⟩ := h
    rcases List.mem_cons.mp hname with hsame | hlater
    · cases hsame
      exact hdeclared
    · exact ih hrest hlater

theorem compileForNode_eq_ok {node : Text} {field : String} {text : Text}
    {parts : List TemplatePart} :
    compileForNode node field text = .ok parts ↔ compile text = .ok parts := by
  unfold compileForNode
  split <;> simp_all

theorem readable_of_validateTemplate {spec : FlowSpec} {node template : Text} {field : String}
    {limits : ResourceLimits} {reads names : List Text}
    (h : validateTemplate spec node template field limits = .ok ())
    (hreads : declaredTemplateReads spec node template field = .ok reads)
    (hknown : ∀ name ∈ reads, name ∈ names) : Readable names template := by
  simp only [validateTemplate, bind_eq_ok, compileForNode_eq_ok] at h
  obtain ⟨parts, hparts, size, hsize, -⟩ := h
  simp only [declaredTemplateReads, bind_eq_ok, compileForNode_eq_ok, pure_eq_ok] at hreads
  obtain ⟨others, hothers, rfl⟩ := hreads
  cases hparts.symm.trans hothers
  refine ⟨parts, hparts, fun name hname => hknown name (List.mem_filter.mpr ⟨?_, ?_⟩)⟩
  · exact List.mem_filterMap.mpr ⟨_, hname, rfl⟩
  · exact declared_of_literalBytes hsize hname

theorem declared_of_validateExpr {spec : FlowSpec} {expression : ValueExpr}
    (h : validateExpr spec expression = .ok ()) {name : Text}
    (hname : name ∈ exprVariables expression) : (spec.vars.get name).isSome := by
  cases expression with
  | literal value => cases hname
  | var other =>
    cases List.mem_singleton.mp hname
    exact require_eq_ok.mp h

theorem declared_of_validatePair {spec : FlowSpec} {left right : ValueExpr}
    (h : validatePair spec left right = .ok ()) {name : Text}
    (hname : name ∈ exprVariables left ++ exprVariables right) : (spec.vars.get name).isSome := by
  simp only [validatePair, bind_eq_ok] at h
  obtain ⟨_, hleft, hright⟩ := h
  exact (List.mem_append.mp hname).elim (declared_of_validateExpr hleft)
    (declared_of_validateExpr hright)

mutual

theorem declared_of_validatePredicate {spec : FlowSpec} {node name : Text} :
    ∀ predicate : Predicate, validatePredicate spec node predicate = .ok () →
      name ∈ predicateVariables predicate → (spec.vars.get name).isSome
  | .const _, _, hname => by cases hname
  | .eq _ _, h, hname | .ne _ _, h, hname | .lt _ _, h, hname | .le _ _, h, hname
  | .gt _ _, h, hname | .ge _ _, h, hname => declared_of_validatePair h hname
  | .and items, h, hname => declared_of_validatePredicates items (by
      cases items with
      | nil => cases h
      | cons first rest => exact h) hname
  | .or items, h, hname => declared_of_validatePredicates items (by
      cases items with
      | nil => cases h
      | cons first rest => exact h) hname
  | .not inner, h, hname => declared_of_validatePredicate inner h hname

theorem declared_of_validatePredicates {spec : FlowSpec} {node name : Text} :
    ∀ items : List Predicate, validatePredicates spec node items = .ok () →
      name ∈ predicatesVariables items → (spec.vars.get name).isSome
  | [], _, hname => by cases hname
  | item :: rest, h, hname => by
    simp only [validatePredicates, bind_eq_ok] at h
    obtain ⟨_, hitem, hrest⟩ := h
    rcases List.mem_append.mp hname with hfirst | hlater
    · exact declared_of_validatePredicate item hitem hfirst
    · exact declared_of_validatePredicates rest hrest hlater

end

theorem edgeTargets_mem {spec : FlowSpec} {node target : Text}
    (h : target ∈ spec.edgeTargets node) : ∃ edge ∈ spec.edges, edge.endpoints = (node, target) := by
  obtain ⟨edge, hedge, htarget⟩ := List.mem_filterMap.mp h
  split at htarget
  · rename_i hsource
    cases htarget
    exact ⟨edge, hedge, by rw [← hsource]⟩
  · cases htarget

theorem checkTarget_eq_ok {spec : FlowSpec} {source target : Text} {value : Unit} :
    checkTarget spec source target = .ok value ↔ (spec.nodes.get target).isSome := require_eq_ok

structure Checked (unicode : Unicode) (spec : FlowSpec) (limits : ResourceLimits) : Prop where
  entry : (spec.nodes.get spec.entry).isSome
  declarations : validateDeclarations spec.vars = .ok ()
  terminals : ∀ node declared, spec.terminals.get node = some declared →
    validateTerminal spec node declared = .ok ()
  nodes : ∀ node kind, spec.nodes.get node = some kind → ∃ effective,
    validateNode unicode spec effective node kind = .ok () ∧
      effective.get .value ≤ limits.get .value
  edges : ∀ node, ∀ target ∈ spec.edgeTargets node, (spec.nodes.get target).isSome
  reads : ∀ node kind, spec.nodes.get node = some kind → ∃ reads,
    nodeReads spec node kind = .ok reads ∧ ∀ name ∈ reads, name ∈ known spec node

theorem checked_of_validateFlowWithin {unicode : Unicode} {spec : FlowSpec}
    {limits : ResourceLimits} (h : validateFlowWithin unicode spec limits = .ok ()) :
    Checked unicode spec limits := by
  simp only [validateFlowWithin, bind_eq_ok, require_eq_ok] at h
  obtain ⟨requested, -, _, -, _, hentry, _, -, _, hdeclarations, _, hterminals, _, hnodes, _, -, _,
    hedges, _, hreads, -⟩ := h
  refine ⟨hentry, hdeclarations,
    fun node declared hget => forM_eq_ok.mp hterminals _ (mem_rows_of_get hget),
    fun node kind hget => ⟨_, forM_eq_ok.mp hnodes _ (mem_rows_of_get hget), Nat.min_le_right _ _⟩,
    ?_, ?_⟩
  · intro node target htarget
    obtain ⟨edge, hedge, hends⟩ := edgeTargets_mem htarget
    have hchecked := forM_eq_ok.mp hedges edge hedge
    simp only [bind_eq_ok, checkTarget_eq_ok, hends] at hchecked
    obtain ⟨_, -, hdeclared⟩ := hchecked
    exact hdeclared
  · intro node kind hget
    obtain ⟨state, hstate⟩ := Option.isSome_iff_exists.mp
      ((available_isSome hentry node).mpr (by rw [hget]; rfl))
    have hnode := forM_eq_ok.mp hreads _ (mem_rows_of_get hget)
    simp only [hstate, bind_eq_ok, forM_eq_ok, require_eq_ok] at hnode
    obtain ⟨reads, hnodeReads, hcontains⟩ := hnode
    refine ⟨reads, hnodeReads, fun name hname => ?_⟩
    rw [known, hstate]
    exact List.contains_iff_mem.mp (hcontains name hname)

theorem Checked.scope {unicode : Unicode} {spec : FlowSpec} {limits : ResourceLimits}
    (h : Checked unicode spec limits) : VarScope.new spec.vars = .ok ⟨spec.vars, .empty⟩ := by
  rw [VarScope.new, h.declarations]
  rfl

theorem Checked.nodeSound {unicode : Unicode} {spec : FlowSpec} {limits : ResourceLimits}
    (h : Checked unicode spec limits) {node : Text} {kind : NodeKind}
    (hkind : spec.nodes.get node = some kind) : NodeSound spec limits node kind := by
  obtain ⟨effective, hvalid, hvalue⟩ := h.nodes node kind hkind
  obtain ⟨reads, hreads, hknown⟩ := h.reads node kind hkind
  have leads {target : Text} (htarget : (spec.nodes.get target).isSome)
      (hmem : target ∈ successorTargets spec node kind) :
      Leads spec (setBehind spec node (known spec node)) target :=
    leads_successor h.entry hkind htarget hmem
  unfold setBehind at leads
  rw [hkind] at leads
  cases kind with
  | say text =>
    simp only [validateNode, validateSayNode, bind_eq_ok, require_eq_ok] at hvalid
    obtain ⟨_, htemplate, -, -, hends⟩ := hvalid
    refine ⟨readable_of_validateTemplate htemplate hreads hknown, ?_⟩
    cases htargets : spec.edgeTargets node with
    | cons target rest =>
      have hmem : target ∈ spec.edgeTargets node := by
        rw [htargets]
        exact List.mem_cons_self
      exact ⟨target, rfl, leads (h.edges node target hmem) (List.mem_append_left _ hmem)⟩
    | nil =>
      obtain ⟨declared, hdeclared⟩ := Option.isSome_iff_exists.mp
        (hends.resolve_left fun hne => hne htargets)
      have hterminal := h.terminals node declared hdeclared
      simp only [validateTerminal, hkind] at hterminal
      cases hterminal
  | ask var options routes =>
    intro option hoption
    cases hdeclared : spec.vars.get var with
    | none =>
      simp only [validateNode, validateAskNode, hdeclared] at hvalid
      cases hvalid
    | some declared =>
      simp only [validateNode, validateAskNode, hdeclared, bind_eq_ok] at hvalid
      obtain ⟨_, -, hvalid⟩ := hvalid
      split at hvalid
      · cases hvalid
      · simp only [bind_eq_ok] at hvalid
        obtain ⟨_, hoptions, -⟩ := hvalid
        have hone := forM_eq_ok.mp hoptions option hoption
        unfold validateOption at hone
        split at hone
        · cases hone
        · rename_i target hroute
          simp only [bind_eq_ok, checkTarget_eq_ok] at hone
          obtain ⟨_, htarget, hone⟩ := hone
          split at hone
          · cases hone
          · rename_i value hdecode
            refine ⟨target, declared, value, hroute, leads htarget ?_, rfl, hdecode,
              Nat.le_trans (require_eq_ok.mp hone) hvalue⟩
            exact List.mem_append_right _ (List.mem_map_of_mem (mem_rows_of_get hroute))
  | branch var when then_ otherwise =>
    simp only [validateNode, validateBranchNode, bind_eq_ok, require_eq_ok,
      checkTarget_eq_ok] at hvalid
    obtain ⟨_, -, _, hpredicate, _, hthen, hotherwise⟩ := hvalid
    cases hreads
    refine ⟨fun name hname => hknown name (List.mem_filter.mpr ⟨hname,
      declared_of_validatePredicate _ hpredicate hname⟩), leads hthen ?_, leads hotherwise ?_⟩
    · exact List.mem_append_right _ List.mem_cons_self
    · exact List.mem_append_right _ (List.mem_cons_of_mem _ List.mem_cons_self)
  | refer target text =>
    simp only [validateNode, validateReferNode, bind_eq_ok] at hvalid
    obtain ⟨_, htemplate, -⟩ := hvalid
    exact readable_of_validateTemplate htemplate hreads hknown
  | route dispatch fallback =>
    simp only [validateNode, bind_eq_ok, checkTarget_eq_ok] at hvalid
    obtain ⟨_, hdispatch, hfallback⟩ := hvalid
    refine ⟨leads hdispatch ?_, leads hfallback ?_⟩
    · exact List.mem_append_right _ List.mem_cons_self
    · exact List.mem_append_right _ (List.mem_cons_of_mem _ List.mem_cons_self)
  | handoff target => trivial
  | end_ => trivial

end LogicalWorks.Session
