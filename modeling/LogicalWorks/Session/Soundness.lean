import LogicalWorks.Session.Account
import LogicalWorks.Session.Assigned
import LogicalWorks.Session.Sizes

/-! A document that validation accepts is walked without a failure of its own. -/
namespace LogicalWorks.Session.Runner

open Fallible

variable {R J : Type} {seams : Seams R J} {names : List Text} {current : Option Text}

/-- The failures an accepted document leaves an answer: the budget and the ceilings, a comparison
of two types, and a refused receipt. -/
def Passing : BotError → Prop
  | .sessionBudgetExceeded _ _ | .recordTooLarge _ _ _ | .sessionRetentionExceeded _ _
  | .templateExpansionTooLarge _ _ _ | .predicateTypeMismatch | .receiptNotRecorded _ _ => True
  | _ => False

def Expected : BotError → Prop
  | .utteranceTooLarge _ _ | .sessionTerminated | .sessionNotAwaitingAnswer => True
  | failure => Passing failure

/-- An accepted document under way: the variables set so far, and the nodes visited. -/
structure Course (unicode : Unicode) where
  flow : FlowSpec
  limits : ResourceLimits
  scope : VarScope
  path : List Text
  checked : Checked unicode flow limits
  declared : scope.declarations = flow.vars

variable {unicode : Unicode}

structure Stands (course : Course unicode) (current : Option Text) (session : Session R J) :
    Prop where
  flow : session.flow = course.flow
  limits : session.limits = course.limits
  scope : session.scope = course.scope
  path : session.visited = course.path
  current : session.current = current

def Ready (course : Course unicode) (node : Text) : Prop :=
  (course.flow.nodes.get node).isSome ∧
    ∀ name ∈ known course.flow node, (course.scope.get name).isSome

def Course.to (course : Course unicode) (path : List Text) : Course unicode :=
  { course with path := path }

def Walks (course : Course unicode) (session : Session R J) : Prop :=
  ∃ current more, Stands (course.to (course.path ++ more)) current session ∧
    ∀ node, current = some node → Ready course node

abbrev Tracked (unicode : Unicode) (session : Session R J) : Prop :=
  ∃ course : Course unicode, Walks course session

variable {course : Course unicode}

def Quiet (unicode : Unicode) {α : Type} (act : Action R J α) : Prop :=
  ∀ (course : Course unicode) current, Holds (Stands course current) act
    (fun _ => Stands course current) (fun failure state => Passing failure ∧ Stands course current state)

theorem Quiet.bind {α β : Type} {act : Action R J α} {rest : α → Action R J β}
    (h : Quiet unicode act) (hrest : ∀ value, Quiet unicode (rest value)) : Quiet unicode (act >>= rest) :=
  fun _ _ => (h _ _).bind fun value => hrest value _ _

theorem Quiet.read {α : Type} {act : Session R J → Action R J α}
    (h : ∀ (session : Session R J) (course : Course unicode) current,
      Stands course current session →
      Holds (· = session) (act session) (fun _ => Stands course current)
        (fun failure state => Passing failure ∧ Stands course current state)) :
    Quiet unicode (get >>= act : Action R J α) :=
  fun _ _ => Holds.read fun session hstands => h session _ _ hstands

theorem Quiet.at {α : Type} {act : Action R J α} (h : Quiet unicode act) {session : Session R J}
    (hstands : Stands course current session) :
    Holds (· = session) act (fun _ => Stands course current)
      (fun failure state => Passing failure ∧ Stands course current state) :=
  (h course current).conseq (fun _ hstate => hstate ▸ hstands) (fun _ _ => id) (fun _ _ => id)

theorem throw_quiet {α : Type} {failure : BotError} (h : Passing failure) :
    Quiet unicode (throw failure : Action R J α) :=
  fun _ _ => Holds.throw fun _ hstands => ⟨h, hstands⟩

theorem chargeStep_quiet : Quiet unicode (chargeStep : Action R J Unit) := by
  refine Quiet.read fun session course current h => ?_
  split
  · exact (throw_quiet (by trivial)).at h
  · split
    · exact (throw_quiet (by trivial)).at h
    · exact Holds.set fun _ _ => { h with }

theorem chargeRetention_quiet (amount : Nat) :
    Quiet unicode (chargeRetention amount : Action R J Unit) := by
  refine Quiet.read fun session course current h => ?_
  dsimp only
  split
  · exact (throw_quiet (by trivial)).at h
  · split
    · exact (throw_quiet (by trivial)).at h
    · exact Holds.set fun _ _ => { h with }

theorem record_quiet (node role text : Text) : Quiet unicode (record seams node role text) := by
  refine Quiet.read fun session course current h => ?_
  dsimp only
  split
  · exact (throw_quiet (by trivial)).at h
  · exact ((chargeRetention_quiet _).at h).bind fun _ => Holds.modify fun _ hstate =>
      { hstate with }

theorem recordPrompt_quiet (node : Text) (options : List Text) :
    Quiet unicode (recordPrompt seams node options) := by
  refine Quiet.read fun session course current h => ?_
  dsimp only
  split
  · exact (throw_quiet (by trivial)).at h
  · exact (record_quiet _ _ _).at h

theorem writeReceipt_quiet (turn : Turn) (selected route : Option Text) :
    Quiet unicode (writeReceipt seams turn selected route) := by
  refine Quiet.read fun session course current h => ?_
  dsimp only
  split
  · exact Holds.bind (Q := fun _ => Stands course current) (Holds.set fun _ _ => { h with })
      fun _ => throw_quiet (by trivial) _ _
  · exact Holds.set fun _ _ => { h with }

theorem reask_quiet (turn : Turn) (ask : List Text) : Quiet unicode (reask seams turn ask) :=
  ((writeReceipt_quiet turn none none).bind fun _ => record_quiet _ _ _).bind
    fun _ => recordPrompt_quiet _ _

theorem expandedBytes_passing {scope : VarScope} {failure : BotError} (parts : List TemplatePart) :
    Bound scope parts → ∀ total, expandedBytes scope parts total = .error failure →
      Passing failure := by
  induction parts with
  | nil =>
    intro _ total h
    cases h
  | cons part rest ih =>
    intro hbound total h
    have hrest := ih fun name hname => hbound name (List.mem_cons_of_mem _ hname)
    have sized : ∃ size, expandedBytes scope (part :: rest) total =
        (checkedAdd total size).elim
          (.error (.templateExpansionTooLarge runtimeNode usizeMax usizeMax))
          (expandedBytes scope rest) := by
      cases part with
      | literal text =>
        refine ⟨bytes text, ?_⟩
        simp only [expandedBytes, pure_bind]
        cases checkedAdd total (bytes text) <;> rfl
      | variable_ name =>
        obtain ⟨value, hvalue⟩ := Option.isSome_iff_exists.mp (hbound name List.mem_cons_self)
        refine ⟨value.renderedBytes, ?_⟩
        simp only [expandedBytes, bound, hvalue, Except.map, ok_bind]
        cases checkedAdd total value.renderedBytes <;> rfl
    obtain ⟨size, hsize⟩ := sized
    rw [hsize] at h
    cases hadd : checkedAdd total size with
    | none =>
      rw [hadd] at h
      cases h
      trivial
    | some sum =>
      rw [hadd] at h
      exact hrest sum h

theorem interpolate_passing {scope : VarScope} {template node : Text} {limit : Nat}
    {failure : BotError} (hreadable : Readable names template)
    (hset : ∀ name ∈ names, (scope.get name).isSome)
    (h : interpolate template scope node limit = .error failure) : Passing failure := by
  obtain ⟨parts, hparts, hreads⟩ := hreadable
  have hbound : Bound scope parts := fun name hname => hset name (hreads name hname)
  rw [interpolate, hparts] at h
  simp only [Except.mapError, ok_bind, renderParts_eq hbound, bind_eq_error] at h
  rcases h with h | ⟨size, -, h | ⟨_, -, h⟩⟩
  · exact expandedBytes_passing parts hbound 0 h
  · unfold require at h
    split at h
    · cases h
    · cases h
      trivial
  · cases h

theorem resolveExpr_isOk {scope : VarScope} {expression : ValueExpr}
    (h : ∀ name ∈ exprVariables expression, (scope.get name).isSome) :
    ∃ value, resolveExpr expression scope = .ok value := by
  cases expression with
  | literal value => exact ⟨value, rfl⟩
  | var name =>
    obtain ⟨value, hvalue⟩ := Option.isSome_iff_exists.mp (h name List.mem_cons_self)
    exact ⟨value, by simp only [resolveExpr, hvalue]⟩

theorem compareValues_passing {left right : Value} {failure : BotError}
    (h : compareValues left right = .error failure) : Passing failure := by
  unfold compareValues at h
  split at h
  all_goals cases h
  trivial

theorem compareExpr_passing {scope : VarScope} {left right : ValueExpr} {holds : Ordering → Bool}
    {failure : BotError}
    (hset : ∀ name ∈ exprVariables left ++ exprVariables right, (scope.get name).isSome)
    (h : compareExpr left right scope holds = .error failure) : Passing failure := by
  obtain ⟨first, hfirst⟩ :=
    resolveExpr_isOk fun name hname => hset name (List.mem_append_left _ hname)
  obtain ⟨second, hsecond⟩ :=
    resolveExpr_isOk fun name hname => hset name (List.mem_append_right _ hname)
  simp only [compareExpr, hfirst, hsecond, ok_bind, bind_eq_error] at h
  rcases h with h | ⟨ordering, -, h⟩
  · exact compareValues_passing h
  · cases h

theorem sameValue_passing {scope : VarScope} {left right : ValueExpr} (equal : Bool)
    {failure : BotError}
    (hset : ∀ name ∈ exprVariables left ++ exprVariables right, (scope.get name).isSome)
    (h : sameValue left right scope equal = .error failure) : Passing failure := by
  obtain ⟨first, hfirst⟩ :=
    resolveExpr_isOk fun name hname => hset name (List.mem_append_left _ hname)
  obtain ⟨second, hsecond⟩ :=
    resolveExpr_isOk fun name hname => hset name (List.mem_append_right _ hname)
  simp only [sameValue, hfirst, hsecond, ok_bind] at h
  cases h

mutual

theorem evaluate_passing {scope : VarScope} {failure : BotError} :
    ∀ predicate : Predicate, (∀ name ∈ predicateVariables predicate, (scope.get name).isSome) →
      evaluate scope predicate = .error failure → Passing failure
  | .const _, _, h => by cases h
  | .eq _ _, hset, h | .ne _ _, hset, h => sameValue_passing _ hset h
  | .lt _ _, hset, h | .le _ _, hset, h | .gt _ _, hset, h | .ge _ _, hset, h =>
    compareExpr_passing hset h
  | .and items, hset, h => (anyAll_passing items hset).1 h
  | .or items, hset, h => (anyAll_passing items hset).2 h
  | .not inner, hset, h => by
    simp only [evaluate, bind_eq_error] at h
    rcases h with h | ⟨value, -, h⟩
    · exact evaluate_passing inner hset h
    · cases h

theorem anyAll_passing {scope : VarScope} {failure : BotError} :
    ∀ items : List Predicate, (∀ name ∈ predicatesVariables items, (scope.get name).isSome) →
      (allTrue scope items = .error failure → Passing failure) ∧
        (anyTrue scope items = .error failure → Passing failure)
  | [], _ => ⟨nofun, nofun⟩
  | item :: rest, hset => by
    have hitem := @evaluate_passing scope failure item fun name hname =>
      hset name (List.mem_append_left _ hname)
    have hrest := @anyAll_passing scope failure rest fun name hname =>
      hset name (List.mem_append_right _ hname)
    constructor
    · intro h
      simp only [allTrue, bind_eq_error] at h
      rcases h with h | ⟨value, -, h⟩
      · exact hitem h
      · split at h
        · cases h
        · exact hrest.1 h
    · intro h
      simp only [anyTrue, bind_eq_error] at h
      rcases h with h | ⟨value, -, h⟩
      · exact hitem h
      · split at h
        · cases h
        · exact hrest.2 h

end

theorem Stands.walks {session : Session R J} {node : Text}
    (h : Stands course (some node) session) (hready : Ready course node) :
    Walks course session := by
  refine ⟨some node, [], ?_, by rintro _ ⟨⟩; exact hready⟩
  rw [List.append_nil]
  exact h

abbrev Halted (unicode : Unicode) (failure : BotError) (session : Session R J) : Prop :=
  Passing failure ∧ Tracked unicode session

abbrev Fares {α : Type} (course : Course unicode) (P : Session R J → Prop)
    (act : Action R J α) : Prop :=
  Holds P act (fun _ => Walks course) (Halted unicode)

theorem halted_bind {α β : Type} {P : Session R J → Prop} {act : Action R J α} {node : Text}
    (h : Holds P act (fun _ => Stands course (some node))
      (fun failure state => Passing failure ∧ Stands course (some node) state))
    (hready : Ready course node) {Q : β → Session R J → Prop} {rest : α → Action R J β}
    (hrest : ∀ value, Holds (Stands course (some node)) (rest value) Q (Halted unicode)) :
    Holds P (act >>= rest) Q (Halted unicode) :=
  (h.refuses fun _ _ hfail => ⟨hfail.1, course, hfail.2.walks hready⟩).bind hrest

theorem speak_stands {node text : Text} (hreadable : Readable names text)
    (hset : ∀ name ∈ names, (course.scope.get name).isSome) :
    Holds (Stands course current) (speak seams node text) (fun _ => Stands course current)
      (fun failure state => Passing failure ∧ Stands course current state) := by
  refine Holds.bind (Holds.read fun session h => ?_) fun rendered => record_quiet _ _ _ _ _
  rw [h.scope]
  cases hrun : interpolate text course.scope node (session.limits.get .record) with
  | ok rendered => exact Holds.pure fun _ hstate => hstate ▸ h
  | error failure =>
    exact Holds.throw fun _ hstate => ⟨interpolate_passing hreadable hset hrun, hstate ▸ h⟩

theorem finish_fares {node : Text} (h : (course.flow.intrinsicTerminal node).isSome) :
    Fares course (Stands (R := R) (J := J) course current) (finish node) := by
  refine Holds.read fun session hstands => ?_
  obtain ⟨intrinsic, hintrinsic⟩ := Option.isSome_iff_exists.mp h
  have houtcome : session.flow.effectiveTerminal node =
      some ((course.flow.terminals.get node).getD intrinsic) := by
    rw [hstands.flow, FlowSpec.effectiveTerminal, hintrinsic, Option.map_some]
  rw [houtcome]
  refine Holds.set fun _ _ => ⟨none, [], ?_, nofun⟩
  rw [List.append_nil]
  exact { hstands with current := rfl }

theorem Stands.move {session : Session R J} {target : Text} (h : Stands course current session)
    (hready : Ready course target) : Walks course { session with current := some target } :=
  Stands.walks { h with current := rfl } hready

theorem step_fares {node : Text} {kind : NodeKind} (hkind : course.flow.nodes.get node = some kind)
    (hready : Ready course node) :
    Fares course (Stands course (some node)) (step seams node kind) := by
  have hsound := course.checked.nodeSound hkind
  have goes {act : Action R J Unit} {value : Bool}
      (h : Fares course (Stands course (some node)) act) :
      Fares course (Stands course (some node)) (act >>= fun _ => pure value) :=
    h.bind fun _ => Holds.pure fun _ => id
  have onward {target : Text} (h : Leads course.flow (known course.flow node) target) :
      Ready course target := ⟨h.1, fun name hname => hready.2 name (h.2 name hname)⟩
  cases kind with
  | say text =>
    obtain ⟨hreadable, target, htarget, hnext⟩ := hsound
    refine goes (halted_bind (speak_stands hreadable hready.2) hready fun _ =>
      Holds.read fun session hstands => ?_)
    have hhead : (session.flow.edgeTargets node).head? = some target := by
      rw [hstands.flow, htarget]
    rw [hhead]
    exact Holds.set fun _ _ => hstands.move (onward hnext)
  | ask var options routes =>
    exact halted_bind (recordPrompt_quiet node options _ _) hready fun _ =>
      Holds.pure fun _ hstate => hstate.walks hready
  | branch var when then_ otherwise =>
    obtain ⟨hreads, hthen, hotherwise⟩ := hsound
    refine goes (Holds.read fun session hstands => ?_)
    cases hrun : evaluate session.scope when with
    | error failure =>
      refine Holds.throw fun _ hstate => ⟨evaluate_passing when (fun name hname => ?_) hrun,
        course, hstate ▸ hstands.walks hready⟩
      rw [hstands.scope]
      exact hready.2 name (hreads name hname)
    | ok holds =>
      refine Holds.set fun _ _ => hstands.move ?_
      cases holds with
      | true => exact onward hthen
      | false => exact onward hotherwise
  | handoff target => exact goes (finish_fares (by rw [FlowSpec.intrinsicTerminal, hkind]; rfl))
  | refer target text =>
    refine goes (halted_bind (speak_stands hsound hready.2) hready fun _ => finish_fares ?_)
    rw [FlowSpec.intrinsicTerminal, hkind]
    rfl
  | route dispatch fallback =>
    refine goes (Holds.modify fun session hstands => hstands.move ?_)
    split
    · exact onward hsound.1
    · exact onward hsound.2
  | end_ => exact goes (finish_fares (by rw [FlowSpec.intrinsicTerminal, hkind]; rfl))

theorem visit_fares {node : Text} (hready : Ready course node) :
    Fares (course.to (course.path ++ [node])) (Stands course (some node)) (visit seams node) := by
  refine halted_bind (chargeStep_quiet _ _) hready fun _ =>
    halted_bind (chargeRetention_quiet _ _ _) hready fun _ => ?_
  refine Holds.bind (Q := fun _ => Stands (course.to (course.path ++ [node])) (some node))
    (Holds.modify fun _ hstands => { hstands with path := congrArg (· ++ [node]) hstands.path })
    fun _ => Holds.read fun session hstands => ?_
  obtain ⟨kind, hkind⟩ := Option.isSome_iff_exists.mp hready.1
  have hnode : session.flow.node node = some kind := by
    rw [FlowSpec.node, hstands.flow]
    exact hkind
  rw [hnode]
  have hstep := @step_fares R J seams unicode (course.to (course.path ++ [node])) node kind hkind
    hready
  exact hstep.conseq (fun _ hstate => hstate ▸ hstands) (fun _ _ => id) (fun _ _ => id)

theorem Walks.back {session : Session R J} {more : List Text}
    (h : Walks (course.to (course.path ++ more)) session) : Walks course session := by
  obtain ⟨current, further, hstands, hready⟩ := h
  refine ⟨current, more ++ further, ?_, hready⟩
  rw [← List.append_assoc]
  exact hstands

theorem driveFor_fares (rounds : Nat) : Fares course (Walks course) (driveFor seams rounds) := by
  induction rounds with
  | zero => exact Holds.pure fun _ => id
  | succ rounds ih =>
    refine Holds.read fun session hwalks => ?_
    have here : ∀ state, state = session → Walks course state := by
      rintro _ rfl
      exact hwalks
    obtain ⟨current, more, hstands, hready⟩ := hwalks
    rw [hstands.current]
    cases current with
    | none => exact Holds.pure here
    | some node =>
      have hvisit := @visit_fares R J seams unicode (course.to (course.path ++ more)) node
        (hready node rfl)
      refine Holds.bind (Q := fun _ => Walks course) (hvisit.conseq
        (fun _ hstate => hstate ▸ hstands) (fun _ _ hstate => hstate.back.back) fun _ _ => id) fun waits => ?_
      split
      · exact Holds.pure fun _ => id
      · exact ih

theorem drive_fares {node : Text} (hready : Ready course node) :
    Fares (course.to (course.path ++ [node])) (Stands course (some node)) (drive seams) := by
  refine Holds.read fun session hstands => Holds.bind (Q := fun _ =>
    Walks (course.to (course.path ++ [node]))) ?_ fun _ => Holds.pure fun _ => id
  refine Holds.read fun state (hstate : state = session) => ?_
  rw [hstate, hstands.current]
  refine ((visit_fares hready).conseq (fun _ hother => hother ▸ hstands) (fun _ _ => id)
    (fun _ _ => id)).bind fun waits => ?_
  split
  · exact Holds.pure fun _ => id
  · exact driveFor_fares _

theorem decodeAnswer_matches {declared : VarType} {answer : Text} {value : Value}
    (h : declared.decodeAnswer answer = .ok value) : valueMatchesType declared value = true := by
  cases declared with
  | string =>
    cases h
    rfl
  | integer =>
    simp only [VarType.decodeAnswer] at h
    split at h <;> cases h
    rfl
  | boolean =>
    simp only [VarType.decodeAnswer] at h
    split at h
    · cases h
      rfl
    · split at h <;> cases h
      rfl
  | choice options =>
    simp only [VarType.decodeAnswer] at h
    split at h
    · rename_i option hfound
      cases h
      exact decide_eq_true (List.mem_of_find?_eq_some hfound)
    · cases h

def Course.answered (course : Course unicode) (var : Text) (value : Value) : Course unicode :=
  { course with scope := { course.scope with values := course.scope.values.insert var value } }

theorem bindAnswer_stands {turn : Turn} {option : Text} {declared : VarType} {value : Value}
    (hdeclared : course.flow.vars.get turn.var = some declared)
    (hdecode : declared.decodeAnswer option = .ok value)
    (hsize : value.renderedBytes ≤ course.limits.get .value) {E : BotError → Session R J → Prop} :
    Holds (Stands course current) (bindAnswer turn option)
      (fun _ => Stands (course.answered turn.var value) current) E := by
  refine Holds.read fun session hstands => ?_
  have hset : session.scope.setFromAnswerWithin turn.var option (session.limits.get .value) =
      .ok (course.answered turn.var value).scope := by
    have hscope : course.scope.declarations.get turn.var = some declared := by
      rw [course.declared]
      exact hdeclared
    simp only [VarScope.setFromAnswerWithin, hstands.scope, hstands.limits, hscope, hdecode,
      if_neg (Nat.not_lt.mpr hsize), VarScope.set, decodeAnswer_matches hdecode, if_true]
    rfl
  rw [hset]
  refine Holds.bind (Q := fun scope state => state = session ∧
    scope = (course.answered turn.var value).scope)
    (Holds.pure fun _ hstate => ⟨hstate, rfl⟩) fun scope => Holds.set ?_
  rintro _ ⟨-, rfl⟩
  exact { hstands with scope := rfl }

theorem Ready.answered {node var target : Text} (hready : Ready course node) (value : Value)
    (hleads : Leads course.flow (var :: known course.flow node) target) :
    Ready (course.answered var value) target := by
  refine ⟨hleads.1, fun name hname => ?_⟩
  change ((course.scope.values.insert var value).get name).isSome
  rw [Table.get_insert]
  split
  · rfl
  · exact hready.2 name ((List.mem_cons.mp (hleads.2 name hname)).resolve_left ‹_›)

theorem acceptResolved_fares {turn : Turn} {index : Nat}
    (hask : course.flow.nodes.get turn.node = some (.ask turn.var turn.options turn.routes))
    (hready : Ready course turn.node) (hindex : index < turn.options.length) :
    ∃ target declared value, turn.routes.get turn.options[index] = some target ∧
      course.flow.vars.get turn.var = some declared ∧
      declared.decodeAnswer turn.options[index] = .ok value ∧
      Fares ((course.answered turn.var value).to (course.path ++ [target]))
        (Stands course (some turn.node)) (acceptResolved seams turn index) := by
  obtain ⟨target, declared, value, hroute, hnext, hdeclared, hdecode, hsize⟩ :=
    course.checked.nodeSound hask turn.options[index] (List.getElem_mem hindex)
  refine ⟨target, declared, value, hroute, hdeclared, hdecode, ?_⟩
  have hstill : Ready (course.answered turn.var value) turn.node :=
    hready.answered value ⟨hready.1, fun _ => List.mem_cons_of_mem _⟩
  unfold acceptResolved
  rw [List.getElem?_eq_getElem hindex]
  dsimp only
  rw [hroute]
  refine halted_bind (writeReceipt_quiet turn _ _ _ _) hready fun _ => ?_
  refine (bindAnswer_stands hdeclared hdecode hsize).bind fun _ => ?_
  refine halted_bind (record_quiet _ _ _ _ _) hstill fun _ => ?_
  exact Holds.bind (Q := fun _ => Stands (course.answered turn.var value) (some target))
    (Holds.modify fun _ hstands => { hstands with current := rfl })
    fun _ => drive_fares (hready.answered value hnext)

theorem applyResolution_fares {turn : Turn}
    (hask : course.flow.nodes.get turn.node = some (.ask turn.var turn.options turn.routes))
    (hready : Ready course turn.node) (resolution : Resolution)
    (hindex : ∀ index tier score lead, resolution = .resolved index tier score lead →
      index < turn.options.length) :
    Holds (Stands course (some turn.node)) (applyResolution seams turn resolution)
      (fun _ => Tracked unicode) (Halted unicode) := by
  have stays {act : Action R J Unit} (h : Quiet unicode act) :
      Holds (Stands course (some turn.node)) act
        (fun _ => Tracked unicode) (Halted unicode) :=
    (h _ _).conseq (fun _ => id) (fun _ _ hstate => ⟨course, hstate.walks hready⟩)
      fun _ _ hstate => ⟨hstate.1, course, hstate.2.walks hready⟩
  cases resolution with
  | resolved index tier score lead =>
    obtain ⟨target, declared, value, -, -, -, hfares⟩ :=
      @acceptResolved_fares R J seams unicode course turn index hask hready (hindex index tier score lead rfl)
    exact hfares.conseq (fun _ => id) (fun _ _ hstate => ⟨_, hstate⟩) (fun _ _ => id)
  | ambiguous tied tier score => exact stays (reask_quiet turn _)
  | absent bestScore => exact stays (reask_quiet turn _)
  | staleAlias question option =>
    exact stays ((record_quiet _ _ _).bind fun _ => reask_quiet turn _)
  | degraded reason => exact stays ((record_quiet _ _ _).bind fun _ => reask_quiet turn _)

def InRange (seams : Seams R J) : Prop :=
  ∀ resolver utterance question index tier score lead,
    (seams.resolve resolver utterance question).1.resolution = .resolved index tier score lead →
      index < question.options.length

theorem answer_fares (hrange : InRange seams) (utterance : Text) :
    Holds (Tracked unicode) (answer seams utterance)
      (fun _ => Tracked unicode)
      (fun failure state => Expected failure ∧ Tracked unicode state) := by
  have expected : ∀ failure, Passing failure → Expected failure := by
    intro failure h
    cases failure <;> first | exact h | trivial
  refine Holds.read fun session hwalks => ?_
  have throws {failure : BotError} (h : Expected failure) : Holds (· = session)
      (throw failure : Action R J Unit) (fun _ => Tracked unicode)
      (fun failure state => Expected failure ∧ Tracked unicode state) :=
    Holds.throw fun _ hstate => ⟨h, hstate ▸ hwalks⟩
  obtain ⟨course, current, more, hstands, hready⟩ := hwalks
  rw [hstands.current]
  dsimp only
  split
  · exact throws (by trivial)
  · cases current with
    | none => exact throws (by trivial)
    | some node =>
      have hthere : Ready (course.to (course.path ++ more)) node := hready node rfl
      dsimp only
      split
      · rename_i var options routes hask
        rw [FlowSpec.node, hstands.flow] at hask
        split
        · exact throws (by trivial)
        · refine Holds.conseq (halted_bind (chargeStep_quiet _ _) hthere fun _ => Holds.of_each
            fun state hstate => (judged_changes _ _).bind fun verdict => Holds.of_each ?_)
            (fun _ hstate => hstate ▸ hstands) (fun _ _ => id)
            (fun failure _ hfail => ⟨expected failure hfail.1, hfail.2⟩)
          rintro _ ⟨hverdict, rfl⟩
          refine (@applyResolution_fares R J seams unicode _ ⟨node, var, options, routes, verdict,
            utterance⟩ hask hthere _ ?_).conseq ?_ (fun _ _ => id) (fun _ _ => id)
          · intro index tier score lead hresolved
            exact hrange _ _ _ index tier score lead (hverdict ▸ hresolved)
          · rintro _ rfl
            exact { hstate with }
      · exact throws (by trivial)

def Course.start {flow : FlowSpec} {limits : ResourceLimits} (h : Checked unicode flow limits) :
    Course unicode where
  flow := flow
  limits := limits
  scope := ⟨flow.vars, .empty⟩
  path := []
  checked := h
  declared := rfl

theorem drive_fresh {flow : FlowSpec} {limits : ResourceLimits}
    (h : Checked unicode flow limits) (name revision : Text) (resolver : R) (journal : J) :
    Ends (fun _ => Tracked unicode) (Halted unicode)
      (drive seams (fresh name flow revision ⟨flow.vars, .empty⟩ resolver journal limits)) := by
  have hentry := leads_entry h.entry
  have hready : Ready (Course.start h) flow.entry :=
    ⟨hentry.1, fun known hknown => absurd (hentry.2 known hknown) List.not_mem_nil⟩
  exact ((drive_fares hready).conseq (fun _ => id) (fun _ _ hstate => ⟨_, hstate⟩)
    (fun _ _ => id)).run _ ⟨rfl, rfl, rfl, rfl, rfl⟩

theorem Reached.walks (hrange : InRange seams) {session : Session R J}
    (h : Reached seams unicode session) : Tracked unicode session := by
  induction h with
  | @started id flow resolver journal limits session hstart =>
    simp only [withComponentsAndLimits, bind_eq_ok] at hstart
    obtain ⟨operator, -, requested, -, _, hvalid, scope, hscope, revision, -, hdrive⟩ := hstart
    have hchecked := checked_of_validateFlowWithin hvalid
    cases hchecked.scope.symm.trans hscope
    have hends := @drive_fresh R J seams unicode flow _ hchecked id revision resolver journal
    split at hdrive
    · rename_i state hrun
      cases hdrive
      rw [hrun] at hends
      exact hends
    · cases hdrive
  | @answered session utterance _ ih =>
    exact after_of_holds ((answer_fares hrange utterance).conseq
      (fun _ hstate => hstate ▸ ih) (fun _ _ => id) fun _ _ => And.right)

/-- A document that validation accepts fails a session for its budget, its ceilings, a comparison of
two types, a refused receipt or an answer nobody asked for, and for nothing else. -/
theorem validation_sound (seams : Seams R J) (unicode : Unicode) (hrange : InRange seams)
    (hrevision : ∀ flow, ∃ revision, seams.revisionOf flow = .ok revision) :
    (∀ id flow resolver journal limits operator requested failure,
      limits.withinCeiling = .ok operator →
        flow.bounds.effectiveResources.withinCeiling = .ok requested →
          validateFlowWithin unicode flow (operator.narrowed requested) = .ok () →
            withComponentsAndLimits seams unicode id flow resolver journal limits =
              .error failure → Passing failure) ∧
      ∀ session utterance failure state, Reached seams unicode session →
        answer seams utterance session = .error failure state → Expected failure := by
  constructor
  · intro id flow resolver journal limits operator requested failure hoperator hrequested hvalid h
    have hchecked := checked_of_validateFlowWithin hvalid
    obtain ⟨revision, hrevised⟩ := hrevision flow
    have hends := @drive_fresh R J seams unicode flow _ hchecked id revision resolver journal
    simp only [withComponentsAndLimits, hoperator, hrequested, hvalid, hchecked.scope, hrevised,
      ok_bind] at h
    split at h
    · cases h
    · rename_i cause state hrun
      cases h
      rw [hrun] at hends
      exact hends.1
  · intro session utterance failure state hreached h
    have hends := (answer_fares hrange utterance).run session (hreached.walks hrange)
    rw [h] at hends
    exact hends.1

def choosing : Seams Unit Unit :=
  { always (.absent 0) with
    resolve := fun _ _ question => (⟨if question.options = [] then .absent 0
      else .resolved 0 .exact 1 1, ⟨[], [], none⟩⟩, ()) }

theorem choosing_inRange : InRange choosing := by
  intro resolver utterance question index tier score lead h
  unfold choosing at h
  dsimp only at h
  split at h
  · cases h
  · cases h
    exact List.length_pos_iff.mpr ‹_›

/-- A session that came to its end is asked for no more. -/
theorem validation_sound_ended : ∃ session failure state, Reached choosing latin session ∧
    answer choosing "yes".toList session = .error failure state ∧ Expected failure := by
  have hruns : ((withComponentsAndLimits choosing latin [] (oneQuestion ["yes".toList]) () ()
      .shipped).toOption.map fun session =>
        (after (answer choosing "yes".toList session)).terminal.isSome) = some true := by
    decide +kernel
  cases hstart : withComponentsAndLimits choosing latin [] (oneQuestion ["yes".toList]) () ()
      .shipped with
  | error failure =>
    rw [hstart] at hruns
    cases hruns
  | ok session =>
    rw [hstart] at hruns
    have hended : (after (answer choosing "yes".toList session)).terminal.isSome = true :=
      Option.some.inj hruns
    have hreached := Reached.answered "yes".toList (.started hstart)
    have hanswer : answer choosing "yes".toList (after (answer choosing "yes".toList session)) =
        .error .sessionTerminated (after (answer choosing "yes".toList session)) := by
      generalize after (answer choosing "yes".toList session) = ended at hended
      unfold answer
      rw [get_bind, if_pos hended]
      rfl
    exact ⟨_, _, _, hreached, hanswer, (validation_sound choosing latin choosing_inRange
      fun _ => ⟨[], rfl⟩).2 _ _ _ _ hreached hanswer⟩

end LogicalWorks.Session.Runner
