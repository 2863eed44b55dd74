import Mathlib.Logic.Basic
import Mathlib.Data.List.Basic
import Mathlib.Data.List.Induction

/-! Runs of a labelled transition system, with the steps they took. -/
namespace LogicalWorks

variable {σ α : Type} {step : σ → α → σ → Prop} {start final : σ} {trace : List (σ × α)}

inductive Run (step : σ → α → σ → Prop) (start : σ) : List (σ × α) → σ → Prop where
  | refl : Run step start [] start
  | snoc {trace : List (σ × α)} {state next : σ} {label : α}
      (before : Run step start trace state) (taken : step state label next) :
      Run step start (trace ++ [(state, label)]) next

namespace Run

theorem invariant {I : σ → Prop} {Allowed : σ → α → Prop} (run : Run step start trace final)
    (hstart : I start)
    (hstep : ∀ state label next, I state → Allowed state label → step state label next → I next)
    (hallowed : ∀ taken ∈ trace, Allowed taken.1 taken.2) : I final := by
  induction run with
  | refl => exact hstart
  | snoc before taken ih =>
    have hlast := hallowed _ (List.mem_append_right _ (List.mem_singleton_self _))
    refine hstep _ _ _ (ih ?_) hlast taken
    intro earlier hearlier
    exact hallowed earlier (List.mem_append_left _ hearlier)

theorem always {I : σ → Prop} (run : Run step start trace final) (hstart : I start)
    (hstep : ∀ state label next, I state → step state label next → I next) : I final := by
  refine @invariant σ α step start final trace I (fun _ _ => True) run hstart ?_ ?_
  · intro state label next hstate _ htaken
    exact hstep state label next hstate htaken
  · intro taken _
    trivial

theorem cut {taken : σ × α} (run : Run step start trace final) (h : taken ∈ trace) :
    ∃ before after, trace = before ++ after ∧ Run step start before taken.1 ∧
      Run step taken.1 after final := by
  induction run with
  | refl => cases h
  | @snoc trace state next label before hstep ih =>
    rcases List.mem_append.mp h with hearlier | hlast
    · obtain ⟨left, right, rfl, hleft, hright⟩ := ih hearlier
      exact ⟨left, right ++ [(state, label)], List.append_assoc _ _ _, hleft, hright.snoc hstep⟩
    · rw [List.mem_singleton.mp hlast]
      exact ⟨trace, [(state, label)], rfl, before, Run.snoc .refl hstep⟩

/-- What one kind of step brings about and no step undoes holds after a run with such a
step. -/
theorem persists {I P : σ → Prop} {Bad : σ → α → Prop} (run : Run step start trace final)
    (hstart : I start)
    (hstep : ∀ state label next, I state → step state label next → I next)
    (hbad : ∀ state label next, I state → Bad state label → step state label next → P next)
    (hkeep : ∀ state label next, I state → P state → step state label next → P next)
    (hsome : ∃ taken ∈ trace, Bad taken.1 taken.2) : P final := by
  induction run with
  | refl =>
    obtain ⟨taken, hmem, -⟩ := hsome
    cases hmem
  | snoc before taken ih =>
    have hbefore := before.always hstart hstep
    obtain ⟨earlier, hmem, hearlier⟩ := hsome
    rcases List.mem_append.mp hmem with hmem | hmem
    · exact hkeep _ _ _ hbefore (ih ⟨earlier, hmem, hearlier⟩) taken
    · rw [List.mem_singleton.mp hmem] at hearlier
      exact hbad _ _ _ hbefore hearlier taken

theorem trans {middle : σ} {rest : List (σ × α)} (run : Run step start trace middle)
    (further : Run step middle rest final) : Run step start (trace ++ rest) final := by
  induction further with
  | refl => rwa [List.append_nil]
  | snoc _ taken ih =>
    rw [← List.append_assoc]
    exact ih.snoc taken

theorem split {before after : List (σ × α)} (run : Run step start (before ++ after) final) :
    ∃ middle, Run step start before middle ∧ Run step middle after final := by
  induction after using List.reverseRecOn generalizing final with
  | nil =>
    rw [List.append_nil] at run
    exact ⟨final, run, .refl⟩
  | append_singleton rest taken ih =>
    rw [← List.append_assoc] at run
    generalize htrace : before ++ rest ++ [taken] = trace at run
    cases run with
    | refl => simp at htrace
    | snoc earlier hstep =>
      obtain ⟨rfl, hlast⟩ := List.append_inj' htrace rfl
      cases hlast
      obtain ⟨middle, hleft, hright⟩ := ih earlier
      exact ⟨middle, hleft, hright.snoc hstep⟩

theorem head {taken : σ × α} (run : Run step start (taken :: trace) final) :
    taken.1 = start ∧ ∃ next, step start taken.2 next ∧ Run step next trace final := by
  obtain ⟨middle, hfirst, hrest⟩ := @split σ α step start final [taken] trace run
  generalize hsingle : [taken] = single at hfirst
  cases hfirst with
  | refl => cases hsingle
  | @snoc before _ _ _ earlier hstep =>
    have hnil : before = [] := by
      cases before with
      | nil => rfl
      | cons first others => simp at hsingle
    subst hnil
    cases hsingle
    generalize hempty : ([] : List (σ × α)) = none at earlier
    cases earlier with
    | refl => exact ⟨rfl, middle, hstep, hrest⟩
    | snoc => simp at hempty

theorem start_mem (run : Run step start trace final) :
    start ∈ trace.map Prod.fst ++ [final] := by
  induction run with
  | refl => exact List.mem_singleton_self _
  | snoc before taken ih =>
    rw [List.map_append]
    exact List.mem_append_left _ ih

theorem guarded {Allowed : σ → α → Prop} (run : Run step start trace final)
    (h : ∀ taken ∈ trace, Allowed taken.1 taken.2) :
    Run (fun state label next => Allowed state label ∧ step state label next) start trace final := by
  induction run with
  | refl => exact .refl
  | snoc _ taken ih =>
    have hlast := h _ (List.mem_append_right _ (List.mem_singleton_self _))
    exact (ih fun earlier hearlier => h earlier (List.mem_append_left _ hearlier)).snoc
      ⟨hlast, taken⟩

theorem crossing {P : σ → Prop} (run : Run step start trace final) (hstart : ¬ P start)
    (hfinal : P final) :
    ∃ before state label next after, trace = before ++ (state, label) :: after ∧
      Run step start before state ∧ step state label next ∧ Run step next after final ∧
      ¬ P state ∧ P next := by
  induction run with
  | refl => exact absurd hfinal hstart
  | @snoc trace state next label earlier taken ih =>
    by_cases hstate : P state
    · obtain ⟨before, turned, turning, turnedNext, after, rfl, hbefore, hturn, hafter, hnot, hnow⟩ :=
        ih hstate
      exact ⟨before, turned, turning, turnedNext, after ++ [(state, label)],
        by rw [List.append_assoc, List.cons_append], hbefore, hturn, hafter.snoc taken, hnot, hnow⟩
    · exact ⟨trace, state, label, next, [], rfl, earlier, taken, .refl, hstate, hfinal⟩

theorem crosses_once {I P : σ → Prop} (run : Run step start trace final) (hstart : I start)
    (hkeep : ∀ state label next, I state → step state label next → I next)
    (hpersist : ∀ state label next, I state → P state → step state label next → P next)
    {first second : σ × α} (hfirst : first ∈ trace) (hsecond : second ∈ trace)
    (hbefore : ¬ P first.1) (hbefore' : ¬ P second.1)
    (hafter : ∀ next, step first.1 first.2 next → P next)
    (hafter' : ∀ next, step second.1 second.2 next → P next) : first = second := by
  induction run with
  | refl => cases hfirst
  | @snoc trace state next label before taken ih =>
    have hsettled : ∀ earlier ∈ trace, (∀ next, step earlier.1 earlier.2 next → P next) →
        P state := by
      intro earlier hmem hcrossed
      refine @persists σ α step start state trace I P (fun state label => (state, label) = earlier)
        before hstart hkeep ?_ hpersist ⟨earlier, hmem, rfl⟩
      rintro state label next - rfl hstep
      exact hcrossed next hstep
    rcases List.mem_append.mp hfirst with hfirst | hfirst
    · rcases List.mem_append.mp hsecond with hsecond | hsecond
      · exact ih hfirst hsecond
      · rw [List.mem_singleton.mp hsecond] at hbefore'
        exact absurd (hsettled first hfirst hafter) hbefore'
    · rcases List.mem_append.mp hsecond with hsecond | hsecond
      · rw [List.mem_singleton.mp hfirst] at hbefore
        exact absurd (hsettled second hsecond hafter') hbefore
      · rw [List.mem_singleton.mp hfirst, List.mem_singleton.mp hsecond]

/-- Where each driven step uses up some of what the others add, a run has no more driven steps than
it was given. -/
theorem potential {I : σ → Prop} {left : σ → Nat} {drives : α → Bool} {gain : Nat}
    (run : Run step start trace final) (hstart : I start)
    (hkeep : ∀ state label next, I state → step state label next → I next)
    (hstep : ∀ state label next, I state → step state label next →
      left next + (drives label).toNat ≤ left state + gain * (!drives label).toNat) :
    (trace.filter fun taken => drives taken.2).length + left final ≤
      left start + gain * (trace.filter fun taken => !drives taken.2).length := by
  induction run with
  | refl => simp
  | @snoc trace state next label before taken ih =>
    have hlast := hstep state label next (before.always hstart hkeep) taken
    rw [List.filter_append, List.filter_append, List.length_append, List.length_append,
      Nat.mul_add]
    cases hlabel : drives label <;> simp [hlabel] at hlast ⊢ <;> omega

end Run

def traceOf (act : σ → α → σ) (start : σ) : List α → List (σ × α)
  | [] => []
  | action :: rest => (start, action) :: traceOf act (act start action) rest

theorem mem_traceOf {act : σ → α → σ} {start : σ} {actions : List α} {taken : σ × α}
    (h : taken ∈ traceOf act start actions) : taken.2 ∈ actions := by
  induction actions generalizing start with
  | nil => cases h
  | cons action rest ih =>
    rcases List.mem_cons.mp h with rfl | h
    · exact List.mem_cons_self
    · exact List.mem_cons_of_mem _ (ih h)

theorem Run.ofActions (act : σ → α → σ) (start : σ) (actions : List α) :
    Run (fun state action next => act state action = next) start (traceOf act start actions)
      (actions.foldl act start) := by
  have hfrom : ∀ (rest : List α) (state : σ) (before : List (σ × α)),
      Run (fun state action next => act state action = next) start before state →
      Run (fun state action next => act state action = next) start
        (before ++ traceOf act state rest) (rest.foldl act state) := by
    intro rest
    induction rest with
    | nil =>
      intro state before hrun
      rwa [traceOf, List.append_nil]
    | cons action rest ih =>
      intro state before hrun
      have hnext := ih (act state action) _ (Run.snoc hrun (Eq.refl (act state action)))
      rwa [List.append_assoc, List.singleton_append] at hnext
  exact hfrom actions start [] .refl

theorem Run.ofEnabled (act : σ → α → σ) (start : σ) (actions : List α)
    (h : ∀ taken ∈ traceOf act start actions, step taken.1 taken.2 (act taken.1 taken.2)) :
    Run step start (traceOf act start actions) (actions.foldl act start) := by
  induction actions generalizing start with
  | nil => exact .refl
  | cons action rest ih =>
    have hfirst := h (start, action) List.mem_cons_self
    have hrest := ih (act start action) fun taken hmem => h taken (List.mem_cons_of_mem _ hmem)
    exact Run.trans (.snoc .refl hfirst) hrest

end LogicalWorks
