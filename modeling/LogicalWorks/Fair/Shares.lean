import LogicalWorks.Fair.Isolation
import Mathlib.Algebra.Order.Field.Basic
import Mathlib.Algebra.Order.Field.Rat
import Mathlib.Tactic.Linarith

/-! Two tenants that are always waiting under their ceilings share the permits by weight: their turns
alternate, and each turn spends its weight. -/
namespace LogicalWorks.Fair
open DeficitRoundRobin

variable {τ W P : Type} [DecidableEq τ] {live : W → Bool} {tenants : Finset τ}
  {round middle next : DeficitRoundRobin τ W} {tenant other front i j : τ} {entry : Entry W}

def Entry.turn (entry : Entry W) : Bool × Nat := (entry.turnOpen, entry.deficit)

def DeficitRoundRobin.first (round : DeficitRoundRobin τ W) (i j : τ) : Option τ :=
  round.ring.find? fun tenant => decide (tenant = i ∨ tenant = j)

theorem first_comm (round : DeficitRoundRobin τ W) (i j : τ) : round.first i j = round.first j i := by
  unfold DeficitRoundRobin.first
  simp only [or_comm]

/-- How far one tenant is ahead of another, each permit counting the other's weight. -/
def DeficitRoundRobin.lead (round : DeficitRoundRobin τ W) (i j : τ) : Nat :=
  if (round.entry i).turnOpen then
    (round.policy.weightOf i - (round.entry i).deficit) * round.policy.weightOf j
  else if (round.entry j).turnOpen then (round.entry j).deficit * round.policy.weightOf i
  else if round.first i j = some i then 0
  else round.policy.weightOf i * round.policy.weightOf j

theorem entry_tidy_of_ne (round : DeficitRoundRobin τ W) (entry : Entry W) (hne : other ≠ tenant) :
    (round.tidy tenant entry).entry other = round.entry other := by
  unfold tidy
  split
  · unfold DeficitRoundRobin.entry
    simp only [Index.get_erase, if_neg hne]
  · rw [entry_place, if_neg hne]

structure Steady (round next : DeficitRoundRobin τ W) : Prop where
  policy : next.policy = round.policy
  turn : ∀ tenant, (next.entry tenant).turn = (round.entry tenant).turn
  ring : round.ring <+: next.ring

namespace Steady

theorem refl (round : DeficitRoundRobin τ W) : Steady round round :=
  ⟨rfl, fun _ => rfl, List.prefix_rfl⟩

theorem trans (h : Steady round middle) (h' : Steady middle next) : Steady round next where
  policy := h'.policy.trans h.policy
  turn := fun tenant => (h'.turn tenant).trans (h.turn tenant)
  ring := h.ring.trans h'.ring

theorem counts (round : DeficitRoundRobin τ W) (retained work : Nat) :
    Steady round { round with retained, work } := ⟨rfl, fun _ => rfl, List.prefix_rfl⟩

theorem place (round : DeficitRoundRobin τ W) (h : entry.turn = (round.entry tenant).turn) :
    Steady round (round.place tenant entry) where
  policy := rfl
  turn := by
    intro other
    rw [entry_place]
    split
    · rename_i heq
      rw [heq, h]
    · rfl
  ring := List.prefix_rfl

theorem tidy (round : DeficitRoundRobin τ W) (h : entry.turn = (round.entry tenant).turn)
    (hoff : entry.onRing = false → entry.turn = (false, 0)) :
    Steady round (round.tidy tenant entry) := by
  by_cases hidle : entry.isIdle = true
  · refine ⟨tidy_policy, fun other => ?_, by rw [tidy_ring]⟩
    by_cases hother : other = tenant
    · have hgone : (round.tidy tenant entry).entry other = .default := by
        unfold DeficitRoundRobin.tidy DeficitRoundRobin.entry
        rw [if_pos hidle, hother]
        simp [Index.get_erase]
      simp only [Entry.isIdle, Bool.and_eq_true, Bool.not_eq_true'] at hidle
      rw [hgone, hother, ← h, hoff hidle.2]
      rfl
    · rw [entry_tidy_of_ne _ _ hother]
  · unfold DeficitRoundRobin.tidy
    rw [if_neg hidle]
    exact place round h

theorem arm (round : DeficitRoundRobin τ W) (tenant : τ) (entry : Entry W) :
    Steady round (round.arm tenant entry).1 ∧ (round.arm tenant entry).2.turn = entry.turn ∧
      ((round.arm tenant entry).2.onRing = false → entry.onRing = false) := by
  unfold DeficitRoundRobin.arm
  split
  · exact ⟨⟨rfl, fun _ => rfl, List.prefix_append _ _⟩, rfl, nofun⟩
  · exact ⟨refl round, rfl, id⟩

end Steady

theorem Sound.turn_of_off {policy : TenancyPolicy τ} {ring : List τ}
    (h : Sound policy live ring tenant entry) (hoff : entry.onRing = false) :
    entry.turn = (false, 0) := by
  have hclosed : entry.turnOpen = false := by
    refine h.turnOpen_eq_false fun hhead => ?_
    have hon := h.onRing.mpr (List.mem_of_mem_head? hhead)
    rw [hoff] at hon
    cases hon
  unfold Entry.turn
  rw [hclosed, h.closed hclosed]

namespace Kept

variable {waiter : W}

theorem steady_enqueue (h : Kept live tenants round) (tenant : τ) (waiter : W) :
    Steady round ((round.step 1).enqueue tenant waiter : Arrival P × DeficitRoundRobin τ W).2 := by
  have hstep : Steady round (round.step 1) := .counts round _ _
  have hsound : Sound round.policy live round.ring tenant ((round.step 1).entry tenant) :=
    h.sound tenant
  have htidied : Steady round ((round.step 1).tidy tenant ((round.step 1).entry tenant)) :=
    hstep.trans (.tidy _ rfl hsound.turn_of_off)
  unfold DeficitRoundRobin.enqueue
  simp only
  split
  · exact htidied
  · split
    · exact htidied
    · unfold DeficitRoundRobin.join
      obtain ⟨harmed, hturn, -⟩ := Steady.arm
        { round.step 1 with retained := (round.step 1).retained + 1 } tenant
        (((round.step 1).entry tenant).push waiter)
      refine (hstep.trans ((Steady.counts _ _ _).trans harmed)).trans (.place _ ?_)
      rw [hturn, harmed.turn]
      rfl

theorem steady_arrive (h : Kept live tenants round) (tenant : τ) (waiter : W) (acquire : Option P) :
    Steady round (round.arrive tenant waiter acquire).2 := by
  have hstep : Steady round (round.step 1) := .counts round _ _
  unfold DeficitRoundRobin.arrive
  simp only
  split
  · cases acquire with
    | none => exact h.steady_enqueue tenant waiter
    | some permit => exact hstep.trans (.place _ rfl)
  · exact h.steady_enqueue tenant waiter

theorem steady_tryArrive (round : DeficitRoundRobin τ W) (tenant : τ) (acquire : Option P) :
    Steady round (round.tryArrive tenant acquire).2 := by
  have hstep : Steady round (round.step 1) := .counts round _ _
  unfold DeficitRoundRobin.tryArrive
  simp only
  split
  · exact hstep
  · rename_i hfree
    simp only [not_or, Bool.not_eq_true, Option.isSome_eq_false_iff,
      Option.isNone_iff_eq_none] at hfree
    cases acquire with
    | none => exact hstep
    | some permit =>
      refine hstep.trans (.place _ ?_)
      unfold DeficitRoundRobin.entry
      rw [hfree.2]
      rfl

theorem steady_noteRelease (h : Kept live tenants round) (tenant : τ) :
    Steady round (round.noteRelease tenant) := by
  have hstep : Steady round (round.step 1) := .counts round _ _
  unfold DeficitRoundRobin.noteRelease
  simp only
  cases hget : (round.step 1).entries.get tenant with
  | none => exact hstep
  | some entry =>
    have hentry : (round.step 1).entry tenant = entry := by
      unfold DeficitRoundRobin.entry
      rw [hget]
      rfl
    have hsound : Sound round.policy live round.ring tenant entry := hentry ▸ h.sound tenant
    have hturn : entry.release.turn = ((round.step 1).entry tenant).turn := by
      rw [hentry]
      rfl
    have hoff : entry.release.onRing = false → entry.release.turn = (false, 0) := hsound.turn_of_off
    simp only
    split
    · exact hstep.trans (.tidy _ hturn hoff)
    · obtain ⟨harmed, hsame, hstill⟩ := Steady.arm (round.step 1) tenant entry.release
      refine (hstep.trans harmed).trans (.tidy _ ?_ fun hleft => ?_)
      · rw [hsame, harmed.turn, hturn]
      · rw [hsame, hoff (hstill hleft)]

theorem steady_noteAbandoned (round : DeficitRoundRobin τ W) (tenant : τ) (live' : W → Bool) :
    Steady round (round.noteAbandoned tenant live') := by
  have hstep : Steady round (round.step 1) := .counts round _ _
  unfold DeficitRoundRobin.noteAbandoned
  simp only
  cases hget : (round.step 1).entries.get tenant with
  | none => exact hstep
  | some entry =>
    have hturn : entry.turn = ((round.step 1).entry tenant).turn := by
      unfold DeficitRoundRobin.entry
      rw [hget]
      rfl
    simp only
    split
    · refine Steady.trans ?_ (.counts _ _ _)
      refine (hstep.trans (.counts _ _ _)).trans (.place _ ?_)
      exact hturn
    · exact hstep.trans (.place _ hturn)

end Kept

structure SameTurns (round next : DeficitRoundRobin τ W) (i j : τ) : Prop where
  policy : next.policy = round.policy
  left : (next.entry i).turn = (round.entry i).turn
  right : (next.entry j).turn = (round.entry j).turn
  first : next.first i j = round.first i j

namespace SameTurns

theorem trans (h : SameTurns round middle i j) (h' : SameTurns middle next i j) :
    SameTurns round next i j where
  policy := h'.policy.trans h.policy
  left := h'.left.trans h.left
  right := h'.right.trans h.right
  first := h'.first.trans h.first

theorem comm (h : SameTurns round next i j) : SameTurns round next j i where
  policy := h.policy
  left := h.right
  right := h.left
  first := by rw [first_comm next, first_comm round, h.first]

theorem lead_eq (h : SameTurns round next i j) : next.lead i j = round.lead i j := by
  obtain ⟨hopen, hdeficit⟩ := Prod.mk.inj h.left
  obtain ⟨hopen', hdeficit'⟩ := Prod.mk.inj h.right
  unfold lead
  rw [h.policy, hopen, hdeficit, hopen', hdeficit', h.first]

theorem of_steady (h : Steady round next) (hi : i ∈ round.ring) : SameTurns round next i j where
  policy := h.policy
  left := h.turn i
  right := h.turn j
  first := by
    obtain ⟨more, hring⟩ := h.ring
    have hsome : (round.first i j).isSome = true := by
      unfold DeficitRoundRobin.first
      rw [List.find?_isSome]
      exact ⟨i, hi, by simp⟩
    unfold DeficitRoundRobin.first at *
    rw [← hring, List.find?_append, Option.or_of_isSome hsome]

theorem of_front {rest : List τ} (more : List τ) (hring : round.ring = front :: rest)
    (hpolicy : next.policy = round.policy)
    (hentry : ∀ other, other ≠ front → next.entry other = round.entry other)
    (hnext : next.ring = rest ++ more) (hmore : ∀ tenant ∈ more, tenant = front)
    (hi : i ≠ front) (hj : j ≠ front) : SameTurns round next i j where
  policy := hpolicy
  left := by rw [hentry i hi]
  right := by rw [hentry j hj]
  first := by
    unfold DeficitRoundRobin.first
    have hfront : decide (front = i ∨ front = j) = false := by simp [Ne.symm hi, Ne.symm hj]
    have hnone : more.find? (fun tenant => decide (tenant = i ∨ tenant = j)) = none := by
      rw [List.find?_eq_none]
      intro tenant hmem
      rw [hmore tenant hmem, hfront]
      exact Bool.false_ne_true
    rw [hnext, hring, List.find?_append, hnone, Option.or_none, List.find?_cons, hfront]

end SameTurns

/-- A permit goes to the first of two tenants: its turn goes on, or ends and the other is first. -/
structure Turned (round next : DeficitRoundRobin τ W) (front other : τ) : Prop where
  policy : next.policy = round.policy
  right : (next.entry other).turn = (round.entry other).turn
  first : round.first front other = some front
  turn : ((round.entry front).left (round.policy.weightOf front) = 1 ∧
      (next.entry front).turn = (false, 0) ∧ next.first front other = some other) ∨
    (1 < (round.entry front).left (round.policy.weightOf front) ∧
      (next.entry front).turn =
        (true, (round.entry front).left (round.policy.weightOf front) - 1))

theorem Sound.first_of_open (h : Sound round.policy live round.ring i (round.entry i))
    (hopen : (round.entry i).turnOpen = true) (j : τ) : round.first i j = some i := by
  obtain ⟨hhead, -⟩ := h.opened hopen
  unfold DeficitRoundRobin.first
  cases hring : round.ring with
  | nil =>
    rw [hring] at hhead
    cases hhead
  | cons head rest =>
    rw [hring] at hhead
    cases hhead
    simp

namespace Kept

theorem lead_le (h : Kept live tenants round) (i j : τ) :
    round.lead i j ≤ round.policy.weightOf i * round.policy.weightOf j := by
  unfold lead
  split
  · exact Nat.mul_le_mul_right _ (Nat.sub_le _ _)
  · split
    · rename_i hopen
      rw [Nat.mul_comm (round.policy.weightOf i)]
      exact Nat.mul_le_mul_right _ ((h.sound j).opened hopen).2.2
    · split
      · exact Nat.zero_le _
      · exact Nat.le_refl _

theorem lead_add_lead (h : Kept live tenants round) (hne : i ≠ j) (hi : i ∈ round.ring) :
    round.lead i j + round.lead j i = round.policy.weightOf i * round.policy.weightOf j := by
  have hcomm := first_comm round i j
  unfold lead
  cases hopen : (round.entry i).turnOpen with
  | true =>
    have hclosed : (round.entry j).turnOpen = false := by
      rw [← Bool.not_eq_true]
      intro hopen'
      have hfirst := (h.sound i).first_of_open hopen j
      rw [hcomm, (h.sound j).first_of_open hopen' i] at hfirst
      exact hne (Option.some.inj hfirst).symm
    have hle := ((h.sound i).opened hopen).2.2
    simp only [hclosed, if_true, Bool.false_eq_true, if_false]
    rw [← Nat.add_mul, Nat.sub_add_cancel hle]
  | false =>
    cases hopen' : (round.entry j).turnOpen with
    | true =>
      have hle := ((h.sound j).opened hopen').2.2
      simp only [if_true, Bool.false_eq_true, if_false]
      rw [← Nat.add_mul, Nat.add_sub_cancel' hle, Nat.mul_comm]
    | false =>
      simp only [Bool.false_eq_true, if_false]
      by_cases hfirst : round.first i j = some i
      · rw [if_pos hfirst, ← hcomm, hfirst, if_neg (by simpa using hne), Nat.zero_add,
          Nat.mul_comm]
      · have hother : round.first i j = some j := by
          unfold DeficitRoundRobin.first at *
          cases hfind : round.ring.find? fun tenant => decide (tenant = i ∨ tenant = j) with
          | none =>
            have hnot := List.find?_eq_none.mp hfind i hi
            simp at hnot
          | some found =>
            have hfound := List.find?_some hfind
            simp only [decide_eq_true_eq] at hfound
            rcases hfound with rfl | rfl
            · exact absurd hfind hfirst
            · rfl
        rw [if_neg hfirst, ← hcomm, hother, if_pos rfl, Nat.add_zero]

theorem lead_turned (h : Kept live tenants round) (hne : front ≠ other)
    (hturned : Turned round next front other) :
    next.lead front other = round.lead front other + round.policy.weightOf other ∧
      ((round.entry front).turnOpen = false → round.lead front other = 0) ∧
      ((next.entry front).turnOpen = false → next.lead front other =
        round.policy.weightOf front * round.policy.weightOf other) := by
  have hclosed : (round.entry other).turnOpen = false := by
    rw [← Bool.not_eq_true]
    intro hopen
    have hfirst := (h.sound other).first_of_open hopen front
    rw [first_comm, hturned.first] at hfirst
    exact hne (Option.some.inj hfirst)
  obtain ⟨hclosed', -⟩ := Prod.mk.inj hturned.right
  rw [hclosed] at hclosed'
  have hbefore : round.lead front other =
      (round.policy.weightOf front - (round.entry front).left (round.policy.weightOf front)) *
        round.policy.weightOf other := by
    unfold lead Entry.left
    cases (round.entry front).turnOpen with
    | true => rfl
    | false => simp [hclosed, hturned.first]
  have hzero : (round.entry front).turnOpen = false → round.lead front other = 0 := by
    intro hopen
    rw [hbefore, Entry.left, hopen]
    simp
  have hleft := (openTurn_spec (h.sound front)).2.2
  refine ⟨?_, hzero, ?_⟩
  · rcases hturned.turn with ⟨hone, hturn, hfirst⟩ | ⟨hmore, hturn⟩
    · obtain ⟨hopen, -⟩ := Prod.mk.inj hturn
      have hnot : next.first front other ≠ some front := by
        rw [hfirst]
        exact fun heq => hne (Option.some.inj heq).symm
      have hpos := round.policy.weightOf_pos front
      unfold lead at hbefore ⊢
      rw [hbefore, hone, hopen, hclosed', hturned.policy]
      simp only [Bool.false_eq_true, if_false, if_neg hnot]
      rw [← Nat.succ_mul, Nat.succ_eq_add_one, Nat.sub_add_cancel hpos]
    · obtain ⟨hopen, hdeficit⟩ := Prod.mk.inj hturn
      rw [hbefore, lead, hopen, hdeficit, hturned.policy]
      simp only [if_true]
      rw [← Nat.succ_mul]
      congr 1
      omega
  · intro hopen
    rcases hturned.turn with ⟨-, -, hfirst⟩ | ⟨-, hturn⟩
    · have hnot : next.first front other ≠ some front := by
        rw [hfirst]
        exact fun heq => hne (Option.some.inj heq).symm
      rw [lead, hopen, hclosed', hturned.policy]
      simp only [Bool.false_eq_true, if_false, if_neg hnot]
    · obtain ⟨hstill, -⟩ := Prod.mk.inj hturn
      rw [hopen] at hstill
      cases hstill

variable {rest : List τ} {waiter : W} {behind : List W}

theorem turned_hand (h : Kept live tenants round) (hring : round.ring = front :: rest)
    (hqueue : (passed live round front).queue = waiter :: behind) (hother : other ∈ rest)
    (hnext : next = ((round.step 1).skip (round.entry front) live).1.hand front rest
      (passed live round front) behind)
    (hline : next.line live front ≠ [])
    (hlt : (next.entry front).inFlight < round.policy.perTenantLimit) :
    Turned round next front other := by
  obtain ⟨hdecided, -, -, -⟩ := h.hand hring hqueue
  rw [← hnext] at hdecided
  obtain ⟨-, -, hnotin, -⟩ := h.front_spec hring
  have hne : other ≠ front := fun heq => hnotin (heq ▸ hother)
  have hbehind : behind ≠ [] := by
    rintro rfl
    exact hline hdecided.line_eq
  rw [hdecided.inFlight_eq] at hlt
  have hfirst : round.first front other = some front := by
    unfold DeficitRoundRobin.first
    rw [hring]
    simp
  rcases @hand_cases τ W _ live ((round.step 1).skip (round.entry front) live).1 front
    (passed live round front) (h.passed_sound front) rest behind with ⟨hleaves, -⟩ | ⟨-, hone, hhand⟩ |
    ⟨-, hmore, hhand⟩
  · rcases hleaves with hnil | hceiling
    · exact absurd hnil hbehind
    · exact absurd hlt (Nat.not_lt.mpr hceiling)
  · rw [← hnext] at hhand
    refine ⟨hdecided.policy, ?_, hfirst, .inl ⟨hone, ?_, ?_⟩⟩
    · rw [hhand, entry_place, if_neg hne]
      rfl
    · rw [hhand, entry_place, if_pos rfl]
      rfl
    · rw [hhand]
      change (rest ++ [front]).find? (fun tenant => decide (tenant = front ∨ tenant = other)) = _
      cases hfind : rest.find? fun tenant => decide (tenant = front ∨ tenant = other) with
      | none =>
        have hnot := List.find?_eq_none.mp hfind other hother
        simp at hnot
      | some found =>
        have hfound := List.find?_some hfind
        simp only [decide_eq_true_eq] at hfound
        rw [List.find?_append, hfind, Option.some_or]
        rcases hfound with rfl | rfl
        · exact absurd (List.mem_of_find?_eq_some hfind) hnotin
        · rfl
  · rw [← hnext] at hhand
    refine ⟨hdecided.policy, ?_, hfirst, .inr ⟨hmore, ?_⟩⟩
    · rw [hhand, entry_place, if_neg hne]
      rfl
    · rw [hhand, entry_place, if_pos rfl]
      rfl

theorem sameTurns_hand (h : Kept live tenants round) (hring : round.ring = front :: rest)
    (hqueue : (passed live round front).queue = waiter :: behind)
    (hi : i ≠ front) (hj : j ≠ front) :
    SameTurns round (((round.step 1).skip (round.entry front) live).1.hand front rest
      (passed live round front) behind) i j := by
  obtain ⟨hdecided, -, -, -⟩ := h.hand hring hqueue
  have hpolicy := hdecided.policy
  rcases @hand_cases τ W _ live ((round.step 1).skip (round.entry front) live).1 front
    (passed live round front) (h.passed_sound front) rest behind with ⟨-, hhand⟩ | ⟨-, -, hhand⟩ | ⟨-, -, hhand⟩
  · rw [hhand] at hpolicy ⊢
    refine .of_front [] hring hpolicy (fun other hne => ?_) ?_ nofun hi hj
    · rw [entry_tidy_of_ne _ _ hne]
      rfl
    · rw [tidy_ring, List.append_nil]
  · rw [hhand] at hpolicy ⊢
    refine .of_front [front] hring hpolicy (fun other hne => ?_) rfl (by simp) hi hj
    rw [entry_place, if_neg hne]
    rfl
  · rw [hhand] at hpolicy ⊢
    refine ⟨hpolicy, ?_, ?_, rfl⟩
    · rw [entry_place, if_neg hi]
      rfl
    · rw [entry_place, if_neg hj]
      rfl

end Kept

/-- What a call that gave its permit to this tenant did to the turns of two tenants. -/
def TurnsAfter (round next : DeficitRoundRobin τ W) (i j : τ) (recipient : Option τ) : Prop :=
  (recipient = some i → Turned round next i j) ∧ (recipient = some j → Turned round next j i) ∧
    (recipient ≠ some i → recipient ≠ some j → SameTurns round next i j)

theorem Turned.after (h : SameTurns round middle i j) (h' : Turned middle next i j) :
    Turned round next i j := by
  obtain ⟨hopen, hdeficit⟩ := Prod.mk.inj h.left
  have hleft : (middle.entry i).left (middle.policy.weightOf i) =
      (round.entry i).left (round.policy.weightOf i) := by
    unfold Entry.left
    rw [hopen, hdeficit, h.policy]
  have hturn := h'.turn
  rw [hleft] at hturn
  exact ⟨h'.policy.trans h.policy, h'.right.trans h.right, h.first ▸ h'.first, hturn⟩

theorem Kept.turnsAfter_grantFrom (permit : P) {ring : List τ} (h : Kept live tenants round)
    (hring : round.ring = ring) (hne : i ≠ j)
    (hi : round.line live i ≠ [] ∧ i ∈ ring) (hj : round.line live j ≠ [] ∧ j ∈ ring)
    (hnext : next = (DeficitRoundRobin.grantFrom permit live ring round).2)
    (hi' : next.line live i ≠ [] ∧ (next.entry i).inFlight < round.policy.perTenantLimit)
    (hj' : next.line live j ≠ [] ∧ (next.entry j).inFlight < round.policy.perTenantLimit) :
    TurnsAfter round next i j
      ((DeficitRoundRobin.grantFrom permit live ring round).1.recipient.map Prod.fst) := by
  induction ring generalizing round tenants with
  | nil => cases hi.2
  | cons front rest ih =>
    obtain ⟨hget, -, -, -⟩ := h.front_spec hring
    have hstepped : (round.step 1).entries.get front = some (round.entry front) := hget
    unfold DeficitRoundRobin.grantFrom at hnext ⊢
    simp only [hstepped] at hnext ⊢
    cases hqueue : ((round.step 1).skip (round.entry front) live).2.queue with
    | nil =>
      simp only [hqueue] at hnext
      obtain ⟨hdecided, hline⟩ := h.retire hring hqueue
      have hfront : ∀ other, round.line live other ≠ [] → other ≠ front := by
        rintro other hwaiting rfl
        exact hwaiting hline
      have hif := hfront i hi.1
      have hjf := hfront j hj.1
      have hleft : (((round.step 1).skip (round.entry front) live).1.retire front rest
          (Kept.passed live round front)).ring = rest := by
        unfold DeficitRoundRobin.retire
        rw [tidy_ring]
      have hsame : SameTurns round (((round.step 1).skip (round.entry front) live).1.retire
          front rest (Kept.passed live round front)) i j := by
        refine .of_front [] hring hdecided.policy (fun other hother => ?_) ?_ nofun
          hif hjf
        · unfold DeficitRoundRobin.retire
          rw [entry_tidy_of_ne _ _ hother]
          rfl
        · rw [hleft, List.append_nil]
      have hrest : ∀ other, other ≠ front → other ∈ front :: rest → other ∈ rest :=
        fun other hother hmem => (List.mem_cons.mp hmem).resolve_left hother
      have hlineOf := fun other hother => (hdecided.others other hother).2.1
      obtain ⟨hleftTurn, hrightTurn, hneither⟩ := ih hdecided.kept hleft
        ⟨by rw [hlineOf i hif]; exact hi.1, hrest i hif hi.2⟩
        ⟨by rw [hlineOf j hjf]; exact hj.1, hrest j hjf hj.2⟩ hnext
        (hdecided.policy ▸ hi') (hdecided.policy ▸ hj')
      exact ⟨fun hsome => .after hsame (hleftTurn hsome),
        fun hsome => .after hsame.comm (hrightTurn hsome),
        fun hnot hnot' => hsame.trans (hneither hnot hnot')⟩
    | cons waiter behind =>
      simp only [hqueue] at hnext
      have hrest : ∀ other, other ≠ front → other ∈ front :: rest → other ∈ rest :=
        fun other hother hmem => (List.mem_cons.mp hmem).resolve_left hother
      refine ⟨fun hsome => ?_, fun hsome => ?_, fun hnot hnot' => ?_⟩
      · have heq : front = i := Option.some.inj hsome
        subst heq
        exact h.turned_hand hring hqueue (hrest j (Ne.symm hne) hj.2) hnext hi'.1 hi'.2
      · have heq : front = j := Option.some.inj hsome
        subst heq
        exact h.turned_hand hring hqueue (hrest i hne hi.2) hnext hj'.1 hj'.2
      · rw [hnext]
        refine h.sameTurns_hand hring hqueue ?_ ?_
        · rintro rfl
          exact hnot rfl
        · rintro rfl
          exact hnot' rfl

section Stretch

variable [DecidableEq W] {policy : TenancyPolicy τ} {world : World τ W} {op : Op τ W P}
  {start final state state' : World τ W} {trace history : List (World τ W × Op τ W P)}

/-- A tenant with a live waiter and fewer admissions than its ceiling. -/
def World.Active (policy : TenancyPolicy τ) (world : World τ W) (tenant : τ) : Prop :=
  world.line tenant ≠ [] ∧ world.round.inFlightOf tenant < policy.perTenantLimit

def World.recipient (world : World τ W) : Op τ W P → Option τ
  | .grant permit => (world.round.grant permit world.isLive).1.recipient.map Prod.fst
  | _ => none

def grants (trace : List (World τ W × Op τ W P)) (tenant : τ) : Nat :=
  trace.countP fun taken => decide (taken.1.recipient taken.2 = some tenant)

theorem grants_snoc (trace : List (World τ W × Op τ W P)) (taken : World τ W × Op τ W P)
    (tenant : τ) : grants (trace ++ [taken]) tenant =
      grants trace tenant + if taken.1.recipient taken.2 = some tenant then 1 else 0 := by
  unfold grants
  rw [List.countP_append, List.countP_singleton]
  simp only [decide_eq_true_eq]

namespace Isolated

theorem mem_ring (h : Isolated policy world) (hactive : world.Active policy tenant) :
    tenant ∈ world.round.ring := by
  obtain ⟨tenants, hkept, -⟩ := h.kept
  obtain ⟨hline, hlt⟩ := hactive
  rw [inFlightOf_eq, ← h.policy_eq] at hlt
  refine hkept.servable tenant ?_ hlt
  intro hqueue
  refine hline ?_
  unfold World.line line
  rw [hqueue]
  rfl

/-- A call takes at most one turn of two tenants that wait under their ceilings before it and
after. -/
theorem turnsAfter (h : Isolated policy world) (taken : world.Step op state) (hne : i ≠ j)
    (hi : world.Active policy i) (hj : world.Active policy j)
    (hi' : state.Active policy i) (hj' : state.Active policy j) :
    TurnsAfter world.round state.round i j (world.recipient op) := by
  obtain ⟨tenants, hkept, -⟩ := h.kept
  have hsteady : Steady world.round state.round → world.recipient op = none →
      TurnsAfter world.round state.round i j (world.recipient op) := by
    intro hsteady hnone
    rw [hnone]
    exact ⟨nofun, nofun, fun _ _ => .of_steady hsteady (h.mem_ring hi)⟩
  obtain ⟨-, rfl⟩ := taken
  cases op with
  | arrive tenant waiter acquire =>
    have hdone : Steady world.round (world.act (.arrive tenant waiter acquire)).round := by
      have hround := hkept.steady_arrive tenant waiter acquire
      rw [World.act_arrive]
      cases houtcome : world.round.arrive tenant waiter acquire with
      | mk outcome round =>
        rw [houtcome] at hround
        cases outcome <;> exact hround
    exact hsteady hdone rfl
  | tryArrive tenant acquire =>
    have hdone : Steady world.round (world.act (.tryArrive tenant acquire)).round := by
      have hround := Kept.steady_tryArrive world.round tenant acquire
      rw [World.act_tryArrive]
      cases houtcome : world.round.tryArrive tenant acquire with
      | mk outcome round =>
        rw [houtcome] at hround
        cases outcome <;> exact hround
    exact hsteady hdone rfl
  | noteRelease tenant => exact hsteady (hkept.steady_noteRelease tenant) rfl
  | noteAbandoned tenant waiter => exact hsteady (Kept.steady_noteAbandoned _ tenant _) rfl
  | grant permit =>
    have hround : (world.act (.grant permit)).round =
        (grantFrom permit world.isLive world.round.ring world.round).2 ∧
        (world.act (.grant permit)).isLive = world.isLive := by
      rw [World.act_grant]
      change _ = (world.round.grant permit world.isLive).2 ∧ _
      cases world.round.grant permit world.isLive with
      | mk outcome round => cases outcome <;> exact ⟨rfl, rfl⟩
    obtain ⟨hnext, hlive⟩ := hround
    unfold World.Active World.line at hi' hj'
    rw [hlive, inFlightOf_eq] at hi' hj'
    refine hkept.turnsAfter_grantFrom permit rfl hne ⟨hi.1, h.mem_ring hi⟩ ⟨hj.1, h.mem_ring hj⟩
      hnext ?_ ?_
    · rw [h.policy_eq]
      exact hi'
    · rw [h.policy_eq]
      exact hj'

theorem lead_step (h : Isolated policy world) (taken : world.Step op state) (hne : i ≠ j)
    (hi : world.Active policy i) (hj : world.Active policy j)
    (hi' : state.Active policy i) (hj' : state.Active policy j) :
    state.round.lead i j + policy.weightOf i * (if world.recipient op = some j then 1 else 0) =
      world.round.lead i j +
        policy.weightOf j * (if world.recipient op = some i then 1 else 0) := by
  obtain ⟨tenants, hkept, -⟩ := h.kept
  obtain ⟨after, hkept', -⟩ := (h.step taken).kept
  obtain ⟨hleft, hright, hneither⟩ := h.turnsAfter taken hne hi hj hi' hj'
  have hpolicy := h.policy_eq
  have hpolicy' := (h.step taken).policy_eq
  by_cases htoI : world.recipient op = some i
  · have hnotJ : world.recipient op ≠ some j := by
      rw [htoI]
      exact fun heq => hne (Option.some.inj heq)
    obtain ⟨hlead, -⟩ := hkept.lead_turned hne (hleft htoI)
    rw [if_pos htoI, if_neg hnotJ, hlead, hpolicy]
    omega
  · by_cases htoJ : world.recipient op = some j
    · obtain ⟨hlead, -⟩ := hkept.lead_turned (Ne.symm hne) (hright htoJ)
      have hsum := hkept.lead_add_lead hne (h.mem_ring hi)
      have hsum' := hkept'.lead_add_lead hne ((h.step taken).mem_ring hi')
      rw [hpolicy] at hsum hlead
      rw [hpolicy'] at hsum'
      rw [if_neg htoI, if_pos htoJ]
      omega
    · rw [if_neg htoI, if_neg htoJ, (hneither htoI htoJ).lead_eq]
      simp

theorem lead_run (h : Isolated policy start) (run : Run World.Step start trace final)
    (hne : i ≠ j) (hactive : ∀ taken ∈ trace, taken.1.Active policy i ∧ taken.1.Active policy j)
    (hi : final.Active policy i) (hj : final.Active policy j) :
    final.round.lead i j + policy.weightOf i * grants trace j =
      start.round.lead i j + policy.weightOf j * grants trace i := by
  induction run with
  | refl => rfl
  | @snoc trace state next op before taken ih =>
    have hlast := hactive _ (List.mem_append_right _ (List.mem_singleton_self _))
    have hbefore := ih (fun earlier hmem => hactive earlier (List.mem_append_left _ hmem))
      hlast.1 hlast.2
    have hstate := before.always h fun _ _ _ hstate htaken => hstate.step htaken
    have hstep := hstate.lead_step taken hne hlast.1 hlast.2 hi hj
    simp only [grants_snoc, Nat.mul_add]
    omega

theorem turn_run (h : Isolated policy start) (run : Run World.Step start trace final)
    (hne : i ≠ j) (hactive : ∀ taken ∈ trace, taken.1.Active policy i ∧ taken.1.Active policy j)
    (hi : final.Active policy i) (hj : final.Active policy j) (hnone : grants trace j = 0) :
    (final.round.entry j).turn = (start.round.entry j).turn := by
  induction run with
  | refl => rfl
  | @snoc trace state next op before taken ih =>
    have hlast := hactive _ (List.mem_append_right _ (List.mem_singleton_self _))
    rw [grants_snoc] at hnone
    have hnot : state.recipient op ≠ some j := by
      intro htoJ
      rw [if_pos htoJ] at hnone
      omega
    have hbefore := ih (fun earlier hmem => hactive earlier (List.mem_append_left _ hmem))
      hlast.1 hlast.2 (by omega)
    have hstate := before.always h fun _ _ _ hstate htaken => hstate.step htaken
    obtain ⟨hleft, -, hneither⟩ := hstate.turnsAfter taken hne hlast.1 hlast.2 hi hj
    rw [← hbefore]
    by_cases htoI : state.recipient op = some i
    · exact (hleft htoI).right
    · exact (hneither htoI hnot).right

theorem between_turns (h : Isolated policy start) (hne : i ≠ j)
    (hclosing : start.Step op state) (hgrant : start.recipient op = some j)
    (hclosed : (state.round.entry j).turnOpen = false)
    (run : Run World.Step state trace state') {op' : Op τ W P}
    (hopening : state'.Step op' final) (hgrant' : state'.recipient op' = some j)
    (hnone : grants trace j = 0)
    (hstart : start.Active policy i ∧ start.Active policy j)
    (hstate : state.Active policy i ∧ state.Active policy j)
    (hactive : ∀ taken ∈ trace, taken.1.Active policy i ∧ taken.1.Active policy j)
    (hstate' : state'.Active policy i ∧ state'.Active policy j)
    (hfinal : final.Active policy i ∧ final.Active policy j) :
    grants trace i = policy.weightOf i := by
  have hnext := h.step hclosing
  have hlast := run.always hnext fun _ _ _ hbefore taken => hbefore.step taken
  obtain ⟨tenants, hkept, -⟩ := h.kept
  obtain ⟨tenants', hkeptNext, -⟩ := hnext.kept
  obtain ⟨tenants'', hkeptLast, -⟩ := hlast.kept
  -- The turn that closes leaves its tenant a whole turn ahead, and the next one finds it even.
  have hturned := (h.turnsAfter hclosing hne hstart.1 hstart.2 hstate.1 hstate.2).2.1 hgrant
  have hahead := (hkept.lead_turned (Ne.symm hne) hturned).2.2 hclosed
  have hsame := hnext.turn_run run hne hactive hstate'.1 hstate'.2 hnone
  have hclosed' : (state'.round.entry j).turnOpen = false :=
    (Prod.mk.inj hsame).1.trans hclosed
  have hturned' := (hlast.turnsAfter hopening hne hstate'.1 hstate'.2 hfinal.1 hfinal.2).2.1 hgrant'
  have heven := (hkeptLast.lead_turned (Ne.symm hne) hturned').2.1 hclosed'
  have hsum := hkeptNext.lead_add_lead hne (hnext.mem_ring hstate.1)
  have hsum' := hkeptLast.lead_add_lead hne (hlast.mem_ring hstate'.1)
  have hrun := hnext.lead_run run hne hactive hstate'.1 hstate'.2
  rw [h.policy_eq] at hahead
  rw [hnext.policy_eq] at hsum
  rw [hlast.policy_eq] at hsum'
  rw [hnone, Nat.mul_zero, Nat.add_zero] at hrun
  have hproduct : policy.weightOf j * grants trace i = policy.weightOf j * policy.weightOf i := by
    rw [Nat.mul_comm (policy.weightOf i)] at hsum hsum'
    omega
  exact Nat.eq_of_mul_eq_mul_left (policy.weightOf_pos j) hproduct

end Isolated

/-- Two weighted counts that differ by at most the product of the weights are in proportion, up to
one turn. -/
theorem abs_div_sub_div_le_one {left right weight weight' : Nat} (hpos : 0 < weight)
    (hpos' : 0 < weight') (hle : weight' * left ≤ weight * right + weight * weight')
    (hle' : weight * right ≤ weight' * left + weight * weight') :
    |(left : ℚ) / weight - right / weight'| ≤ 1 := by
  have hw : (0 : ℚ) < weight := by exact_mod_cast hpos
  have hw' : (0 : ℚ) < weight' := by exact_mod_cast hpos'
  have hproduct : (0 : ℚ) < weight * weight' := mul_pos hw hw'
  have hcast : (weight' : ℚ) * left ≤ weight * right + weight * weight' := by exact_mod_cast hle
  have hcast' : (weight : ℚ) * right ≤ weight' * left + weight * weight' := by exact_mod_cast hle'
  rw [div_sub_div _ _ (ne_of_gt hw) (ne_of_gt hw'), abs_div, abs_of_pos hproduct,
    div_le_one hproduct, abs_le]
  constructor <;> linarith

end Stretch

instance World.decidableActive [DecidableEq W] (policy : TenancyPolicy τ) (world : World τ W)
    (tenant : τ) : Decidable (world.Active policy tenant) :=
  inferInstanceAs (Decidable (_ ∧ _))

def heavyPolicy : TenancyPolicy Nat :=
  ((TenancyPolicy.new 9 9).withWeight 0 2 (by decide)).toOption.getD (.new 9 9)

def heavyArrivals : List (Op Nat Nat Unit) :=
  [.arrive 0 1 none, .arrive 1 2 none, .arrive 0 3 none, .arrive 1 4 none, .arrive 0 5 none,
    .arrive 1 6 none, .arrive 0 7 none, .arrive 2 8 none]

def heavyStart : World Nat Nat := heavyArrivals.foldl World.act (.new heavyPolicy)

def heavyGrants : List (Op Nat Nat Unit) :=
  [.grant (), .grant (), .noteAbandoned 2 8, .grant (), .grant ()]

end LogicalWorks.Fair
