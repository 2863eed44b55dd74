import LogicalWorks.Lib.Bytes

/-! Loops over unread input.  A reader takes one turn at a time; a turn stops with an
outcome or goes on with a new state and strictly less input. -/
namespace LogicalWorks

inductive Turn (σ ο : Type) where
  | stop (outcome : ο)
  | go (state : σ) (left : Bytes)

structure Reader (σ ο : Type) where
  turn : σ → Bytes → Turn σ ο
  consumes : ∀ {state rest next left}, turn state rest = .go next left →
    left.length < rest.length

namespace Reader

variable {σ τ ο π : Type} (reader : Reader σ ο)

def loop : (fuel : Nat) → σ → (rest : Bytes) → rest.length ≤ fuel → σ × ο
  | 0, state, rest, henough =>
    match hturn : reader.turn state rest with
    | .stop outcome => (state, outcome)
    | .go _ _ => absurd (reader.consumes hturn) (by omega)
  | fuel + 1, state, rest, henough =>
    match hturn : reader.turn state rest with
    | .stop outcome => (state, outcome)
    | .go next left =>
      loop fuel next left (by
        have hless := reader.consumes hturn
        omega)

def run (state : σ) (rest : Bytes) : σ × ο :=
  reader.loop rest.length state rest (Nat.le_refl _)

variable {reader}

private theorem loop_stop {fuel : Nat} {state : σ} {rest : Bytes} {outcome : ο}
    (henough : rest.length ≤ fuel) (h : reader.turn state rest = .stop outcome) :
    reader.loop fuel state rest henough = (state, outcome) := by
  cases fuel with
  | zero =>
    unfold loop
    split
    · rename_i hturn
      cases h.symm.trans hturn
      rfl
    · rename_i hturn
      cases h.symm.trans hturn
  | succ fuel =>
    unfold loop
    split
    · rename_i hturn
      cases h.symm.trans hturn
      rfl
    · rename_i hturn
      cases h.symm.trans hturn

private theorem loop_go {fuel : Nat} {state next : σ} {rest left : Bytes}
    (henough : rest.length ≤ fuel + 1) (h : reader.turn state rest = .go next left)
    (hleft : left.length ≤ fuel) :
    reader.loop (fuel + 1) state rest henough = reader.loop fuel next left hleft := by
  conv => lhs; unfold loop
  split
  · rename_i hturn
    cases h.symm.trans hturn
  · rename_i hturn
    cases h.symm.trans hturn
    rfl

private theorem loop_fuel (fuel : Nat) :
    ∀ {more : Nat} {state : σ} {rest : Bytes} (henough : rest.length ≤ fuel)
      (hmore : rest.length ≤ more),
      reader.loop fuel state rest henough = reader.loop more state rest hmore := by
  induction fuel with
  | zero =>
    intro more state rest henough hmore
    cases hturn : reader.turn state rest with
    | stop outcome => rw [loop_stop henough hturn, loop_stop hmore hturn]
    | go next left =>
      have hless := reader.consumes hturn
      omega
  | succ fuel ih =>
    intro more state rest henough hmore
    cases hturn : reader.turn state rest with
    | stop outcome => rw [loop_stop henough hturn, loop_stop hmore hturn]
    | go next left =>
      have hless := reader.consumes hturn
      cases more with
      | zero => omega
      | succ more =>
        rw [loop_go henough hturn (by omega), loop_go hmore hturn (by omega)]
        exact ih (by omega) (by omega)

theorem run_stop {state : σ} {rest : Bytes} {outcome : ο}
    (h : reader.turn state rest = .stop outcome) : reader.run state rest = (state, outcome) :=
  loop_stop (Nat.le_refl _) h

theorem run_go {state next : σ} {rest left : Bytes}
    (h : reader.turn state rest = .go next left) :
    reader.run state rest = reader.run next left := by
  have hless := reader.consumes h
  have hrun : reader.run state rest =
      reader.loop (rest.length - 1 + 1) state rest (by omega) :=
    loop_fuel _ (Nat.le_refl _) (by omega)
  rw [hrun, loop_go (by omega) h (by omega)]
  exact loop_fuel _ (by omega) (Nat.le_refl _)

theorem run_induct {motive : σ → Bytes → Prop}
    (step : ∀ state rest, (∀ next left, reader.turn state rest = .go next left →
      motive next left) → motive state rest) (state : σ) (rest : Bytes) :
    motive state rest := by
  induction hlength : rest.length using Nat.strong_induction_on generalizing state rest with
  | _ length ih =>
    apply step
    intro next left hturn
    have hless := reader.consumes hturn
    exact ih left.length (by omega) next left rfl

/-- Two turns that stop together, or go on together over the same input. -/
def TurnsMatch (R : σ → τ → Bytes → Prop) (Q : σ × ο → τ × π → Prop) (state : σ) (other : τ) :
    Turn σ ο → Turn τ π → Prop
  | .stop outcome, .stop second => Q (state, outcome) (other, second)
  | .go next left, .go second rest => left = rest ∧ R next second left
  | _, _ => False

theorem run_related {right : Reader τ π} {R : σ → τ → Bytes → Prop}
    {Q : σ × ο → τ × π → Prop}
    (hturns : ∀ state other rest, R state other rest →
      TurnsMatch R Q state other (reader.turn state rest) (right.turn other rest))
    {state : σ} {other : τ} {rest : Bytes} (h : R state other rest) :
    Q (reader.run state rest) (right.run other rest) := by
  induction state, rest using reader.run_induct generalizing other with
  | step state rest ih =>
    have hmatch := hturns state other rest h
    cases hleft : reader.turn state rest with
    | stop outcome =>
      cases hright : right.turn other rest with
      | stop second =>
        rw [hleft, hright] at hmatch
        rw [run_stop hleft, run_stop hright]
        exact hmatch
      | go second left =>
        rw [hleft, hright] at hmatch
        exact hmatch.elim
    | go next left =>
      cases hright : right.turn other rest with
      | stop second =>
        rw [hleft, hright] at hmatch
        exact hmatch.elim
      | go second behind =>
        rw [hleft, hright] at hmatch
        obtain ⟨rfl, hrelated⟩ := hmatch
        rw [run_go hleft, run_go hright]
        exact ih next left hleft hrelated

theorem run_invariant {I : σ → Prop}
    (hturn : ∀ state rest next left, I state → reader.turn state rest = .go next left → I next)
    {state : σ} (rest : Bytes) (h : I state) : I (reader.run state rest).1 := by
  induction state, rest using reader.run_induct with
  | step state rest ih =>
    cases hread : reader.turn state rest with
    | stop outcome =>
      rw [run_stop hread]
      exact h
    | go next left =>
      rw [run_go hread]
      exact ih next left hread (hturn state rest next left h hread)

end Reader

end LogicalWorks
