import LogicalWorks.Fair.Decisions
import LogicalWorks.Lib.Run

/-! Tenants are isolated and nobody who waits is lost: the round against what came to it. -/
namespace LogicalWorks.Fair
open DeficitRoundRobin

variable {τ W P : Type} [DecidableEq τ] [DecidableEq W]

/-- The round, the admissions that have not ended, who joined a queue and who was served, oldest
first, the waiters their owners left while they waited, and how many calls there were. -/
structure World (τ W : Type) [DecidableEq τ] where
  round : DeficitRoundRobin τ W
  admitted : List τ
  joined : List (τ × W)
  served : List (τ × W)
  left : List W
  calls : Nat

inductive Op (τ W P : Type) where
  | arrive (tenant : τ) (waiter : W) (acquire : Option P)
  | tryArrive (tenant : τ) (acquire : Option P)
  | grant (permit : P)
  | noteRelease (tenant : τ)
  | noteAbandoned (tenant : τ) (waiter : W)

namespace World

def new (policy : TenancyPolicy τ) : World τ W := ⟨.new policy, [], [], [], [], 0⟩

def isLive (world : World τ W) (waiter : W) : Bool := !world.left.contains waiter

def line (world : World τ W) (tenant : τ) : List W := world.round.line world.isLive tenant

def joinedOf (world : World τ W) (tenant : τ) : List W :=
  (world.joined.filter fun pair => pair.1 = tenant).map Prod.snd

def servedOf (world : World τ W) (tenant : τ) : List W :=
  (world.served.filter fun pair => pair.1 = tenant).map Prod.snd

def arrived (world : World τ W) (tenant : τ) (waiter : W) :
    Arrival P × DeficitRoundRobin τ W → World τ W
  | (.immediate _, round) =>
    { world with round, admitted := tenant :: world.admitted, calls := world.calls + 1 }
  | (.queued, round) =>
    { world with round, joined := world.joined ++ [(tenant, waiter)], calls := world.calls + 1 }
  | (_, round) => { world with round, calls := world.calls + 1 }

def tried (world : World τ W) (tenant : τ) : TryArrival P × DeficitRoundRobin τ W → World τ W
  | (.immediate _, round) =>
    { world with round, admitted := tenant :: world.admitted, calls := world.calls + 1 }
  | (.contended, round) => { world with round, calls := world.calls + 1 }

def granted (world : World τ W) : GrantOutcome τ W P × DeficitRoundRobin τ W → World τ W
  | (.granted tenant waiter _, round) =>
    { world with
      round, admitted := tenant :: world.admitted, served := world.served ++ [(tenant, waiter)]
      calls := world.calls + 1 }
  | (.idle _, round) => { world with round, calls := world.calls + 1 }

def abandoned (world : World τ W) (tenant : τ) (waiter : W) : World τ W :=
  let world := { world with left := waiter :: world.left, calls := world.calls + 1 }
  { world with round := world.round.noteAbandoned tenant world.isLive }

def act (world : World τ W) : Op τ W P → World τ W
  | .arrive tenant waiter acquire =>
    world.arrived tenant waiter (world.round.arrive tenant waiter acquire)
  | .tryArrive tenant acquire => world.tried tenant (world.round.tryArrive tenant acquire)
  | .grant permit => world.granted (world.round.grant permit world.isLive)
  | .noteRelease tenant =>
    { world with
      round := world.round.noteRelease tenant
      admitted := world.admitted.erase tenant, calls := world.calls + 1 }
  | .noteAbandoned tenant waiter => world.abandoned tenant waiter

/-- A waiter arrives once; only an admission ends, and only somebody who waits goes away. -/
def Possible (world : World τ W) : Op τ W P → Prop
  | .arrive _ waiter _ => waiter ∉ world.joined.map Prod.snd
  | .tryArrive _ _ | .grant _ => True
  | .noteRelease tenant => tenant ∈ world.admitted
  | .noteAbandoned tenant waiter => waiter ∈ world.line tenant

def Step (world : World τ W) (op : Op τ W P) (next : World τ W) : Prop :=
  world.Possible op ∧ world.act op = next

end World

/-- The round is what came to it: admissions are counted, and the waiters of a tenant that stayed
are those it was served and those in its line, in the order they came. -/
structure Isolated (policy : TenancyPolicy τ) (world : World τ W) : Prop where
  policy_eq : world.round.policy = policy
  kept : ∃ tenants, Kept world.isLive tenants world.round ∧
    world.round.potential tenants ≤ 3 * world.calls
  counted : ∀ tenant, (world.round.entry tenant).inFlight = world.admitted.count tenant
  distinct : (world.joined.map Prod.snd).Nodup
  within : ∀ tenant, (world.round.entry tenant).queue.Sublist (world.joinedOf tenant)
  order : ∀ tenant, (world.joinedOf tenant).filter world.isLive =
    world.servedOf tenant ++ world.line tenant
  left_joined : ∀ waiter ∈ world.left, waiter ∈ world.joined.map Prod.snd

namespace Isolated

variable {policy : TenancyPolicy τ} {world : World τ W} {tenant : τ} {waiter : W}

theorem new (policy : TenancyPolicy τ) : Isolated policy (.new policy : World τ W) where
  policy_eq := rfl
  kept := ⟨∅, .new policy _, by simp [potential, total, World.new, DeficitRoundRobin.new]⟩
  counted := fun _ => rfl
  distinct := List.nodup_nil
  within := fun _ => List.Sublist.refl _
  order := fun _ => rfl
  left_joined := nofun

theorem recount (h : Isolated policy world) {round : DeficitRoundRobin τ W} {admitted : List τ}
    (hpolicy : round.policy = world.round.policy)
    (hkept : ∃ tenants, Kept world.isLive tenants round ∧
      round.potential tenants ≤ 3 * (world.calls + 1))
    (hcounted : ∀ other, (round.entry other).inFlight = admitted.count other)
    (hqueue : ∀ other, (round.entry other).queue = (world.round.entry other).queue) :
    Isolated policy { world with round, admitted, calls := world.calls + 1 } where
  policy_eq := hpolicy.trans h.policy_eq
  kept := hkept
  counted := hcounted
  distinct := h.distinct
  within := by
    intro other
    simp only [hqueue]
    exact h.within other
  order := by
    intro other
    have horder := h.order other
    unfold World.line line at *
    simp only [hqueue]
    exact horder
  left_joined := h.left_joined

theorem recounted (h : Isolated policy world) {round : DeficitRoundRobin τ W} {admitted : List τ}
    {tenants : Finset τ} {inFlight cost : Nat}
    (hpotential : world.round.potential tenants ≤ 3 * world.calls) (hcost : cost ≤ 3)
    (hdecided : Decided world.isLive world.isLive tenants world.round round tenant
      (world.round.entry tenant).queue inFlight cost)
    (hself : inFlight = admitted.count tenant)
    (hothers : ∀ other, other ≠ tenant → admitted.count other = world.admitted.count other) :
    Isolated policy { world with round, admitted, calls := world.calls + 1 } := by
  refine h.recount hdecided.policy ⟨_, hdecided.kept, Nat.le_trans hdecided.cost (by omega)⟩
    (fun other => ?_) fun other => ?_
  · by_cases hother : other = tenant
    · rw [hother, hdecided.inFlight_eq, hself]
    · rw [(hdecided.others other hother).2.2, h.counted, hothers other hother]
  · by_cases hother : other = tenant
    · rw [hother, hdecided.queue_eq]
    · exact (hdecided.others other hother).1

theorem noteRelease (h : Isolated policy world) (tenant : τ) :
    Isolated policy (world.act (.noteRelease tenant : Op τ W P)) := by
  obtain ⟨tenants, hkept, hpotential⟩ := h.kept
  refine h.recounted hpotential (by omega) (hkept.release tenant) ?_ fun other hne => ?_
  · rw [h.counted, List.count_erase_self]
  · exact List.count_erase_of_ne hne

theorem unchanged (h : Isolated policy world) {round : DeficitRoundRobin τ W}
    (hpolicy : round.policy = world.round.policy)
    (hentry : ∀ other, round.entry other = world.round.entry other)
    (hring : round.ring = world.round.ring) (hretained : round.retained = world.round.retained)
    (hwork : round.work ≤ world.round.work + 1) (tenant : τ) :
    Isolated policy { world with round, calls := world.calls + 1 } := by
  obtain ⟨tenants, hkept, hpotential⟩ := h.kept
  exact h.recounted hpotential (by omega)
    (hkept.unchanged tenant hpolicy hentry hring hretained hwork) (h.counted tenant) fun _ _ => rfl

theorem immediate (h : Isolated policy world) (hring : world.round.ring = [])
    (hlt : (world.round.entry tenant).inFlight < world.round.policy.perTenantLimit) :
    Isolated policy { world with
      round := (world.round.step 1).place tenant (world.round.entry tenant).charge
      admitted := tenant :: world.admitted, calls := world.calls + 1 } := by
  obtain ⟨tenants, hkept, hpotential⟩ := h.kept
  refine h.recounted hpotential (by omega) (hkept.immediate hring hlt) ?_ fun other hne => ?_
  · rw [h.counted, List.count_cons_self]
  · exact List.count_cons_of_ne (Ne.symm hne)

theorem join (h : Isolated policy world) (hfresh : waiter ∉ world.joined.map Prod.snd)
    (hqueue : (world.round.entry tenant).live < world.round.policy.queuePerTenant)
    (htotal : world.round.retained < world.round.policy.queueTotal) :
    Isolated policy { world with
      round := (world.round.step 1).join tenant waiter
      joined := world.joined ++ [(tenant, waiter)], calls := world.calls + 1 } := by
  obtain ⟨tenants, hkept, hpotential⟩ := h.kept
  have hlive : world.isLive waiter = true := by
    have hstays : waiter ∉ world.left := fun hleft => hfresh (h.left_joined waiter hleft)
    simpa [World.isLive] using hstays
  have hdecided := hkept.join hlive hqueue htotal
  have hjoined : ∀ other, ((world.joined ++ [(tenant, waiter)]).filter fun pair =>
      pair.1 = other).map Prod.snd =
        world.joinedOf other ++ if tenant = other then [waiter] else [] := by
    intro other
    rw [List.filter_append, List.map_append]
    by_cases hother : tenant = other <;> simp [World.joinedOf, hother]
  constructor
  case policy_eq => exact hdecided.policy.trans h.policy_eq
  case kept =>
    refine ⟨_, hdecided.kept, Nat.le_trans hdecided.cost ?_⟩
    change _ ≤ 3 * (world.calls + 1)
    omega
  case counted =>
    intro other
    by_cases hother : other = tenant
    · rw [hother]
      exact hdecided.inFlight_eq.trans (h.counted tenant)
    · exact (hdecided.others other hother).2.2.trans (h.counted other)
  case distinct =>
    rw [List.map_append, List.map_singleton]
    exact h.distinct.append (List.nodup_singleton _) (by simpa using hfresh)
  case within =>
    intro other
    unfold World.joinedOf
    simp only [hjoined]
    by_cases hother : other = tenant
    · subst hother
      rw [hdecided.queue_eq, if_pos rfl]
      exact (h.within other).append (List.Sublist.refl _)
    · rw [(hdecided.others other hother).1, if_neg (Ne.symm hother), List.append_nil]
      exact h.within other
  case order =>
    intro other
    have horder := h.order other
    unfold World.joinedOf World.line
    simp only [hjoined]
    rw [List.filter_append]
    change (world.joinedOf other).filter world.isLive ++ _ = world.servedOf other ++ _
    rw [horder, List.append_assoc]
    congr 1
    change world.round.line world.isLive other ++
      (if tenant = other then [waiter] else []).filter world.isLive = _
    by_cases hother : other = tenant
    · subst hother
      rw [if_pos rfl]
      refine Eq.symm (hdecided.line_eq.trans ?_)
      exact List.filter_append _ _
    · rw [if_neg (Ne.symm hother)]
      exact (List.append_nil _).trans (hdecided.others other hother).2.1.symm
  case left_joined =>
    intro found hfound
    rw [List.map_append]
    exact List.mem_append_left _ (h.left_joined found hfound)

theorem enqueue (h : Isolated policy world) (hfresh : waiter ∉ world.joined.map Prod.snd) :
    Isolated policy (world.arrived tenant waiter
      ((world.round.step 1).enqueue tenant waiter : Arrival P × DeficitRoundRobin τ W)) := by
  obtain ⟨tenants, hkept, hpotential⟩ := h.kept
  have hwork : (world.round.step 1).work ≤ world.round.work + 1 := Nat.min_le_left _ _
  have hentry : ∀ other, ((world.round.step 1).tidy tenant
      ((world.round.step 1).entry tenant)).entry other = world.round.entry other := by
    intro other
    refine (entry_tidy _ tenant other (hkept.sound tenant).eq_default).trans ?_
    split
    · rename_i heq
      rw [heq]
    · rfl
  have htidied : Isolated policy { world with
      round := (world.round.step 1).tidy tenant ((world.round.step 1).entry tenant)
      calls := world.calls + 1 } :=
    h.unchanged (by simp [DeficitRoundRobin.step]) hentry (by simp [DeficitRoundRobin.step])
      (by simp [DeficitRoundRobin.step]) (by simpa using hwork) tenant
  unfold DeficitRoundRobin.enqueue
  by_cases hfull : world.round.policy.queuePerTenant ≤ (world.round.entry tenant).live
  · have hfull' : (world.round.step 1).policy.queuePerTenant ≤
        ((world.round.step 1).entry tenant).live := hfull
    simp only [if_pos hfull']
    exact htidied
  · have hfull' : ¬ (world.round.step 1).policy.queuePerTenant ≤
        ((world.round.step 1).entry tenant).live := hfull
    simp only [if_neg hfull']
    by_cases htotal : world.round.policy.queueTotal ≤ world.round.retained
    · have htotal' : (world.round.step 1).policy.queueTotal ≤ (world.round.step 1).retained := htotal
      simp only [if_pos htotal']
      exact htidied
    · have htotal' : ¬ (world.round.step 1).policy.queueTotal ≤ (world.round.step 1).retained :=
        htotal
      simp only [if_neg htotal']
      exact h.join hfresh (Nat.not_le.mp hfull) (Nat.not_le.mp htotal)

theorem arrive (h : Isolated policy world) (hfresh : waiter ∉ world.joined.map Prod.snd)
    (acquire : Option P) : Isolated policy (world.act (.arrive tenant waiter acquire)) := by
  change Isolated policy (world.arrived tenant waiter (world.round.arrive tenant waiter acquire))
  unfold DeficitRoundRobin.arrive
  simp only
  split
  · rename_i hfree
    cases acquire with
    | none => exact h.enqueue hfresh
    | some permit => exact h.immediate hfree.1 hfree.2
  · exact h.enqueue hfresh

theorem tryArrive (h : Isolated policy world) (acquire : Option P) :
    Isolated policy (world.act (.tryArrive tenant acquire)) := by
  change Isolated policy (world.tried tenant (world.round.tryArrive tenant acquire))
  have hcontended : Isolated policy { world with
      round := world.round.step 1, calls := world.calls + 1 } :=
    h.unchanged rfl (fun _ => rfl) rfl rfl (Nat.min_le_left _ _) tenant
  unfold DeficitRoundRobin.tryArrive
  simp only
  split
  · exact hcontended
  · rename_i hfree
    simp only [not_or, not_not, Bool.not_eq_true, Option.isSome_eq_false_iff,
      Option.isNone_iff_eq_none] at hfree
    cases acquire with
    | none => exact hcontended
    | some permit =>
      have hdefault : world.round.entry tenant = .default := by
        change ((world.round.step 1).entries.get tenant).getD .default = _
        rw [hfree.2]
        rfl
      have hlt : (world.round.entry tenant).inFlight < world.round.policy.perTenantLimit := by
        rw [hdefault]
        exact world.round.policy.limit_pos
      have himmediate := h.immediate hfree.1 hlt
      rw [hdefault] at himmediate
      exact himmediate

theorem grant (h : Isolated policy world) (permit : P) :
    Isolated policy (world.act (.grant permit)) := by
  obtain ⟨tenants, hkept, hpotential⟩ := h.kept
  obtain ⟨after, -, hgranted⟩ := hkept.grantFrom permit rfl
  change Isolated policy (world.granted (grantFrom permit world.isLive world.round.ring world.round))
  cases houtcome : grantFrom permit world.isLive world.round.ring world.round with
  | mk outcome round =>
  rw [houtcome] at hgranted
  have hcost : round.potential after ≤ 3 * (world.calls + 1) :=
    Nat.le_trans hgranted.cost (by omega)
  have hwithin : ∀ other, (round.entry other).queue.Sublist (world.joinedOf other) :=
    fun other => (hgranted.queues other).trans (h.within other)
  cases outcome with
  | idle permit =>
    obtain ⟨-, hsame⟩ := hgranted.idle rfl
    constructor
    case policy_eq => exact hgranted.policy.trans h.policy_eq
    case kept => exact ⟨after, hgranted.kept, hcost⟩
    case counted => exact fun other => (hsame other).2.trans (h.counted other)
    case distinct => exact h.distinct
    case within => exact hwithin
    case order =>
      intro other
      refine (h.order other).trans ?_
      exact congrArg (world.servedOf other ++ ·) (hsame other).1.symm
    case left_joined => exact h.left_joined
  | granted front waiter permit =>
    obtain ⟨hline, hflight, -, hothers⟩ := hgranted.granted front waiter rfl
    have hserved : ∀ other, ((world.served ++ [(front, waiter)]).filter fun pair =>
        pair.1 = other).map Prod.snd =
          world.servedOf other ++ if front = other then [waiter] else [] := by
      intro other
      rw [List.filter_append, List.map_append]
      by_cases hother : front = other <;> simp [World.servedOf, hother]
    constructor
    case policy_eq => exact hgranted.policy.trans h.policy_eq
    case kept => exact ⟨after, hgranted.kept, hcost⟩
    case counted =>
      intro other
      by_cases hother : other = front
      · rw [hother]
        refine hflight.trans ?_
        rw [h.counted]
        exact List.count_cons_self.symm
      · refine (hothers other hother).2.trans ((h.counted other).trans ?_)
        exact (List.count_cons_of_ne (Ne.symm hother)).symm
    case distinct => exact h.distinct
    case within => exact hwithin
    case order =>
      intro other
      refine (h.order other).trans ?_
      change world.servedOf other ++ world.round.line world.isLive other =
        ((world.served ++ [(front, waiter)]).filter fun pair => pair.1 = other).map Prod.snd ++
          round.line world.isLive other
      rw [hserved, List.append_assoc]
      congr 1
      by_cases hother : other = front
      · rw [hother, if_pos rfl]
        exact hline
      · rw [if_neg (Ne.symm hother)]
        exact (hothers other hother).1.symm
    case left_joined => exact h.left_joined

theorem nodup_joinedOf (h : Isolated policy world) (tenant : τ) : (world.joinedOf tenant).Nodup :=
  (List.Sublist.map _ List.filter_sublist).nodup h.distinct

theorem joinedOf_unique (h : Isolated policy world) {other : τ}
    (hmem : waiter ∈ world.joinedOf tenant) (hother : waiter ∈ world.joinedOf other) :
    other = tenant := by
  unfold World.joinedOf at hmem hother
  simp only [List.mem_map, List.mem_filter, decide_eq_true_eq] at hmem hother
  obtain ⟨found, ⟨hfound, hfoundTenant⟩, hfoundWaiter⟩ := hmem
  obtain ⟨again, ⟨hagain, hagainTenant⟩, hagainWaiter⟩ := hother
  have hsame := List.inj_on_of_nodup_map h.distinct hagain hfound
    (hagainWaiter.trans hfoundWaiter.symm)
  rw [← hagainTenant, hsame, hfoundTenant]

theorem noteAbandoned (h : Isolated policy world) (hline : waiter ∈ world.line tenant) :
    Isolated policy (world.act (.noteAbandoned tenant waiter : Op τ W P)) := by
  obtain ⟨tenants, hkept, hpotential⟩ := h.kept
  let leaving : World τ W :=
    { world with left := waiter :: world.left, calls := world.calls + 1 }
  change Isolated policy { leaving with
    round := world.round.noteAbandoned tenant leaving.isLive }
  obtain ⟨hqueued, hlive⟩ := List.mem_filter.mp hline
  have hjoined := (h.within tenant).subset hqueued
  have hleft : leaving.isLive waiter = false := by simp [leaving, World.isLive]
  have hsame : ∀ other, other ≠ waiter → leaving.isLive other = world.isLive other := by
    intro other hne
    simp [leaving, World.isLive, hne]
  have hliveAgain : ∀ other, leaving.isLive other = (world.isLive other && decide (other ≠ waiter)) := by
    intro other
    by_cases heq : other = waiter
    · simp [heq, hleft]
    · simp [heq, hsame other heq]
  have hfilter : ∀ waiters : List W, waiters.filter leaving.isLive =
      (waiters.filter world.isLive).filter fun other => other ≠ waiter := by
    intro waiters
    rw [List.filter_filter]
    apply List.filter_congr
    intro other _
    rw [hliveAgain, Bool.and_comm]
  obtain ⟨queue, hsub, hqueue, hdecided⟩ := hkept.abandoned
    ((h.within tenant).nodup (h.nodup_joinedOf tenant)) hqueued hlive hleft hsame
    fun other hne hin => hne (h.joinedOf_unique hjoined ((h.within other).subset hin))
  constructor
  case policy_eq => exact hdecided.policy.trans h.policy_eq
  case kept =>
    refine ⟨_, hdecided.kept, Nat.le_trans hdecided.cost ?_⟩
    change _ ≤ 3 * (world.calls + 1)
    omega
  case counted =>
    intro other
    by_cases hother : other = tenant
    · rw [hother]
      exact hdecided.inFlight_eq.trans (h.counted tenant)
    · exact (hdecided.others other hother).2.2.trans (h.counted other)
  case distinct => exact h.distinct
  case within =>
    intro other
    by_cases hother : other = tenant
    · subst hother
      rw [hdecided.queue_eq]
      exact hsub.trans (h.within other)
    · rw [(hdecided.others other hother).1]
      exact h.within other
  case order =>
    intro other
    change (world.joinedOf other).filter leaving.isLive = world.servedOf other ++
      (world.round.noteAbandoned tenant leaving.isLive).line leaving.isLive other
    have horder := h.order other
    by_cases hother : other = tenant
    · subst hother
      rw [hdecided.line_eq, hqueue, hfilter, hfilter, horder, List.filter_append]
      congr 1
      -- Who was served has left the queue, so it is not the waiter.
      have hnodup : (world.servedOf other ++ world.line other).Nodup := by
        rw [← horder]
        exact (h.nodup_joinedOf other).filter _
      have hnot : waiter ∉ world.servedOf other :=
        fun hin => List.disjoint_of_nodup_append hnodup hin hline
      rw [List.filter_eq_self]
      intro found hfound
      exact decide_eq_true fun heq => hnot (heq ▸ hfound)
    · rw [(hdecided.others other hother).2.1]
      refine Eq.trans (List.filter_congr fun found hfound => ?_) horder
      refine hsame found fun heq => hother ?_
      exact h.joinedOf_unique hjoined (heq ▸ hfound)
  case left_joined =>
    intro found hfound
    rcases List.mem_cons.mp hfound with rfl | hfound
    · exact (List.Sublist.map _ List.filter_sublist).subset hjoined
    · exact h.left_joined found hfound

theorem step {op : Op τ W P} {next : World τ W} (h : Isolated policy world)
    (taken : world.Step op next) : Isolated policy next := by
  obtain ⟨hpossible, rfl⟩ := taken
  cases op with
  | arrive tenant waiter acquire => exact h.arrive hpossible acquire
  | tryArrive tenant acquire => exact h.tryArrive acquire
  | grant permit => exact h.grant permit
  | noteRelease tenant => exact h.noteRelease tenant
  | noteAbandoned tenant waiter => exact h.noteAbandoned hpossible

theorem run {trace : List (World τ W × Op τ W P)} {final : World τ W}
    (h : Run World.Step (.new policy) trace final) : Isolated policy final :=
  h.always (new policy) fun _ _ _ hstate taken => hstate.step taken

theorem line_eq_nil (h : Isolated policy world) (hring : world.round.ring = [])
    (hlt : world.round.inFlightOf tenant < policy.perTenantLimit) : world.line tenant = [] := by
  obtain ⟨tenants, hkept, -⟩ := h.kept
  rw [inFlightOf_eq, ← h.policy_eq] at hlt
  have hqueue : (world.round.entry tenant).queue = [] := by
    by_contra hne
    have hin := hkept.servable tenant hne hlt
    rw [hring] at hin
    cases hin
  unfold World.line line
  rw [hqueue]
  rfl

theorem length_line (h : Isolated policy world) (tenant : τ) :
    world.round.queuedOf tenant = (world.line tenant).length := by
  obtain ⟨tenants, hkept, -⟩ := h.kept
  rw [queuedOf_eq, (hkept.sound tenant).live_eq]
  rfl

end Isolated

theorem World.act_calls (world : World τ W) (op : Op τ W P) :
    (world.act op).calls = world.calls + 1 := by
  cases op with
  | arrive tenant waiter acquire =>
    change (world.arrived tenant waiter (world.round.arrive tenant waiter acquire)).calls = _
    cases houtcome : world.round.arrive tenant waiter acquire with
    | mk outcome round => cases outcome <;> rfl
  | tryArrive tenant acquire =>
    change (world.tried tenant (world.round.tryArrive tenant acquire)).calls = _
    cases houtcome : world.round.tryArrive tenant acquire with
    | mk outcome round => cases outcome <;> rfl
  | grant permit =>
    change (world.granted (world.round.grant permit world.isLive)).calls = _
    cases houtcome : world.round.grant permit world.isLive with
    | mk outcome round => cases outcome <;> rfl
  | noteRelease tenant => rfl
  | noteAbandoned tenant waiter => rfl

theorem World.calls_eq {policy : TenancyPolicy τ} {trace : List (World τ W × Op τ W P)}
    {final : World τ W} (h : Run World.Step (.new policy) trace final) :
    final.calls = trace.length := by
  induction h with
  | refl => rfl
  | snoc before taken ih =>
    rw [← taken.2, World.act_calls, ih, List.length_append, List.length_singleton]

theorem grantFrom_permit (permit : P) (live : W → Bool) (ring : List τ)
    (round : DeficitRoundRobin τ W) :
    (grantFrom permit live ring round).1 = .idle permit ∨
      ∃ tenant waiter, (grantFrom permit live ring round).1 = .granted tenant waiter permit := by
  induction ring generalizing round with
  | nil => exact .inl rfl
  | cons front rest ih =>
    unfold grantFrom
    cases (round.step 1).entries.get front with
    | none => exact ih _
    | some entry =>
      simp only
      cases ((round.step 1).skip entry live).2.queue with
      | nil => exact ih _
      | cons waiter behind => exact .inr ⟨front, waiter, rfl⟩

theorem World.act_arrive (world : World τ W) (tenant : τ) (waiter : W) (acquire : Option P) :
    world.act (.arrive tenant waiter acquire) =
      world.arrived tenant waiter (world.round.arrive tenant waiter acquire) := rfl

theorem World.act_tryArrive (world : World τ W) (tenant : τ) (acquire : Option P) :
    world.act (.tryArrive tenant acquire) =
      world.tried tenant (world.round.tryArrive tenant acquire) := rfl

theorem World.act_grant (world : World τ W) (permit : P) :
    world.act (.grant permit) = world.granted (world.round.grant permit world.isLive) := rfl

theorem World.act_spec (world : World τ W) (op : Op τ W P) :
    world.joined <+: (world.act op).joined ∧
    ((world.act op).left = world.left ∨ ∃ tenant waiter, op = .noteAbandoned tenant waiter ∧
      (world.act op).left = waiter :: world.left) ∧
    ((world.act op).served = world.served ∨ ∃ tenant waiter permit,
      op = .grant permit ∧ (world.round.grant permit world.isLive).1 = .granted tenant waiter permit ∧
      (world.act op).served = world.served ++ [(tenant, waiter)]) := by
  cases op with
  | arrive tenant waiter acquire =>
    rw [World.act_arrive]
    cases world.round.arrive tenant waiter acquire with
    | mk outcome round =>
      cases outcome with
      | queued => exact ⟨List.prefix_append _ _, .inl rfl, .inl rfl⟩
      | immediate | refused | supervisorFull => exact ⟨List.prefix_rfl, .inl rfl, .inl rfl⟩
  | tryArrive tenant acquire =>
    rw [World.act_tryArrive]
    cases world.round.tryArrive tenant acquire with
    | mk outcome round => cases outcome <;> exact ⟨List.prefix_rfl, .inl rfl, .inl rfl⟩
  | grant permit =>
    have hpermit := grantFrom_permit permit world.isLive world.round.ring world.round
    change (world.round.grant permit world.isLive).1 = _ ∨
      ∃ tenant waiter, (world.round.grant permit world.isLive).1 = _ at hpermit
    rw [World.act_grant]
    cases houtcome : world.round.grant permit world.isLive with
    | mk outcome round =>
      rw [houtcome] at hpermit
      cases outcome with
      | idle => exact ⟨List.prefix_rfl, .inl rfl, .inl rfl⟩
      | granted tenant waiter given =>
        have hgiven : given = permit := by
          rcases hpermit with hidle | ⟨_, _, hgranted⟩
          · cases hidle
          · cases hgranted
            rfl
        subst hgiven
        refine ⟨List.prefix_rfl, .inl rfl, .inr ⟨tenant, waiter, given, rfl, ?_, rfl⟩⟩
        rw [houtcome]
  | noteRelease tenant => exact ⟨List.prefix_rfl, .inl rfl, .inl rfl⟩
  | noteAbandoned tenant waiter =>
    exact ⟨List.prefix_rfl, .inr ⟨tenant, waiter, rfl, rfl⟩, .inl rfl⟩

namespace Isolated

variable {policy : TenancyPolicy τ} {world : World τ W} {tenant : τ} {waiter : W}

theorem nodup_order (h : Isolated policy world) (tenant : τ) :
    (world.servedOf tenant ++ world.line tenant).Nodup := by
  rw [← h.order tenant]
  exact (h.nodup_joinedOf tenant).filter _

theorem line_of_granted (h : Isolated policy world) {permit : P}
    (hgranted : (world.round.grant permit world.isLive).1 = .granted tenant waiter permit) :
    world.line tenant = waiter :: (world.act (.grant permit)).line tenant := by
  obtain ⟨tenants, hkept, -⟩ := h.kept
  obtain ⟨after, -, hspec⟩ := hkept.grantFrom permit rfl
  have hrecipient : (world.round.grant permit world.isLive).1.recipient = some (tenant, waiter) := by
    rw [hgranted]
    rfl
  have hline := (hspec.granted tenant waiter hrecipient).1
  rw [World.act_grant]
  change world.line tenant = waiter :: (world.round.grant permit world.isLive).2.line _ tenant at hline
  cases houtcome : world.round.grant permit world.isLive with
  | mk outcome round =>
    rw [houtcome] at hgranted hline
    subst hgranted
    exact hline

theorem waits (h : Isolated policy world) {op : Op τ W P} {next : World τ W}
    (taken : world.Step op next) (hline : waiter ∈ world.line tenant) :
    waiter ∈ next.line tenant ∨
    (∃ permit, (world.round.grant permit world.isLive).1 = .granted tenant waiter permit ∧
      op = .grant permit ∧ world.line tenant = waiter :: next.line tenant) ∨
    op = .noteAbandoned tenant waiter := by
  have hnext := h.step taken
  obtain ⟨hpossible, rfl⟩ := taken
  obtain ⟨hjoined, hleft, hserved⟩ := world.act_spec op
  obtain ⟨hqueued, hlive⟩ := List.mem_filter.mp hline
  have hmem := (h.within tenant).subset hqueued
  have hmemNext : waiter ∈ (world.act op).joinedOf tenant :=
    ((hjoined.sublist.filter _).map _).subset hmem
  by_cases habandoned : op = .noteAbandoned tenant waiter
  · exact .inr (.inr habandoned)
  have hliveNext : (world.act op).isLive waiter = true := by
    unfold World.isLive at *
    rcases hleft with hsame | ⟨leaver, leaving, rfl, hmore⟩
    · rw [hsame]
      exact hlive
    · have hne : waiter ≠ leaving := by
        rintro rfl
        have hgone : waiter ∈ world.line leaver := hpossible
        have hleaver := (h.within leaver).subset (List.mem_filter.mp hgone).1
        exact habandoned (by rw [h.joinedOf_unique hmem hleaver])
      rw [hmore]
      simpa [hne] using hlive
  have hkept : waiter ∈ (world.act op).servedOf tenant ++ (world.act op).line tenant := by
    rw [← hnext.order tenant]
    exact List.mem_filter.mpr ⟨hmemNext, hliveNext⟩
  have hnot : waiter ∉ world.servedOf tenant :=
    fun hin => List.disjoint_of_nodup_append (h.nodup_order tenant) hin hline
  rcases List.mem_append.mp hkept with hin | hin
  · unfold World.servedOf at hin hnot
    rcases hserved with hsame | ⟨front, first, permit, rfl, hgranted, hmore⟩
    · rw [hsame] at hin
      exact absurd hin hnot
    · rw [hmore, List.filter_append, List.map_append, List.mem_append] at hin
      have hlast := hin.resolve_left hnot
      simp only [List.mem_map, List.mem_filter, List.mem_singleton, decide_eq_true_eq] at hlast
      obtain ⟨pair, ⟨rfl, rfl⟩, rfl⟩ := hlast
      exact .inr (.inl ⟨permit, hgranted, rfl, h.line_of_granted hgranted⟩)
  · exact .inl hin

theorem idle (h : Isolated policy world) {permit back : P}
    (hidle : (world.round.grant permit world.isLive).1 = .idle back)
    (hlt : world.round.inFlightOf tenant < policy.perTenantLimit) : world.line tenant = [] := by
  obtain ⟨tenants, hkept, -⟩ := h.kept
  obtain ⟨after, -, hspec⟩ := hkept.grantFrom permit rfl
  have hrecipient : (world.round.grant permit world.isLive).1.recipient = none := by
    rw [hidle]
    rfl
  obtain ⟨hring, hsame⟩ := hspec.idle hrecipient
  refine (hsame tenant).1.symm.trans ?_
  rw [inFlightOf_eq, ← (hsame tenant).2, ← h.policy_eq, ← hspec.policy] at hlt
  have hqueue : ((grantFrom permit world.isLive world.round.ring world.round).2.entry tenant).queue
      = [] := by
    by_contra hne
    have hin := hspec.kept.servable tenant hne hlt
    rw [hring] at hin
    cases hin
  unfold line
  rw [hqueue]
  rfl

end Isolated

theorem immediate_spec {round : DeficitRoundRobin τ W} {tenant : τ} {waiter : W}
    {acquire : Option P} {permit : P}
    (h : (round.arrive tenant waiter acquire).1 = .immediate permit ∨
      (round.tryArrive tenant acquire).1 = .immediate permit) :
    acquire = some permit ∧ round.ring = [] := by
  have hwaits : ∀ round : DeficitRoundRobin τ W,
      (round.enqueue tenant waiter).1 ≠ .immediate permit := by
    intro round
    unfold DeficitRoundRobin.enqueue
    simp only
    split
    · simp
    · split <;> simp
  rcases h with h | h
  · unfold DeficitRoundRobin.arrive at h
    simp only at h
    split at h
    · rename_i hfree
      cases acquire with
      | none => exact absurd h (hwaits _)
      | some given =>
        cases h
        exact ⟨rfl, hfree.1⟩
    · exact absurd h (hwaits _)
  · unfold DeficitRoundRobin.tryArrive at h
    simp only at h
    split at h
    · cases h
    · rename_i hfree
      cases acquire with
      | none => cases h
      | some given =>
        cases h
        exact ⟨rfl, not_not.mp (not_or.mp hfree).1⟩

/-- What a world is after a number of calls: the tenants are isolated from one another, and nobody
who waits is lost. -/
structure FairAdmission (P : Type) (policy : TenancyPolicy τ) (calls : Nat) (world : World τ W) : Prop where
  inFlight : ∀ tenant, world.round.inFlightOf tenant = world.admitted.count tenant ∧
    world.round.inFlightOf tenant ≤ policy.perTenantLimit
  queued : ∀ tenant, world.round.queuedOf tenant = (world.line tenant).length ∧
    world.round.queuedOf tenant ≤ policy.queuePerTenant
  retained : ∀ tenant, world.round.retainedOf tenant ≤ 2 * policy.queuePerTenant
  retainedTotal : ∃ tenants : Finset τ, (∀ tenant, tenant ∉ tenants →
    world.round.retainedOf tenant = 0) ∧
    world.round.retainedTotal = ∑ tenant ∈ tenants, world.round.retainedOf tenant ∧
    world.round.retainedTotal ≤ policy.queueTotal
  /-- Who joined a tenant's queue and was not left was served, once, or waits, in the order of
  arrival. -/
  order : ∀ tenant, (world.joinedOf tenant).filter world.isLive =
    world.servedOf tenant ++ world.line tenant
  once : ∀ tenant, (world.servedOf tenant ++ world.line tenant).Nodup
  /-- Who waits goes on waiting through every call but the grant to it and its own leaving. -/
  waits : ∀ (op : Op τ W P) next, world.Step op next → ∀ tenant, ∀ waiter ∈ world.line tenant,
    waiter ∈ next.line tenant ∨
    (∃ permit, (world.round.grant permit world.isLive).1 = .granted tenant waiter permit ∧
      op = .grant permit ∧ world.line tenant = waiter :: next.line tenant) ∨
    op = .noteAbandoned tenant waiter
  /-- A permit is handed back only where nobody could have had it. -/
  idle : ∀ permit back : P, (world.round.grant permit world.isLive).1 = .idle back →
    back = permit ∧ ∀ tenant, world.round.inFlightOf tenant < policy.perTenantLimit →
      world.line tenant = []
  immediate : ∀ asking waiter (acquire : Option P) permit,
    (world.round.arrive asking waiter acquire).1 = .immediate permit ∨
      (world.round.tryArrive asking acquire).1 = .immediate permit →
    acquire = some permit ∧ ∀ tenant, world.round.inFlightOf tenant < policy.perTenantLimit →
      world.line tenant = []
  work : world.round.work ≤ 3 * calls

/-- Whatever calls come to a round in whatever order, its tenants are isolated and nobody is
lost. -/
theorem tenants_isolated {policy : TenancyPolicy τ} {trace : List (World τ W × Op τ W P)}
    {final : World τ W} (h : Run World.Step (.new policy) trace final) :
    FairAdmission P policy trace.length final := by
  have hfinal := Isolated.run h
  obtain ⟨tenants, hkept, hpotential⟩ := hfinal.kept
  rw [World.calls_eq h] at hpotential
  have hpolicy := hfinal.policy_eq
  constructor
  case inFlight =>
    intro tenant
    rw [inFlightOf_eq]
    exact ⟨hfinal.counted tenant, hpolicy ▸ (hkept.sound tenant).inFlight_le⟩
  case queued =>
    intro tenant
    refine ⟨hfinal.length_line tenant, ?_⟩
    rw [hfinal.length_line tenant, ← hpolicy]
    exact (hkept.sound tenant).queued
  case retained =>
    intro tenant
    have hlength := (hkept.sound tenant).length_queue
    have hqueued := (hkept.sound tenant).queued
    have hleft := (hkept.sound tenant).abandoned_le
    rw [retainedOf_eq, ← hpolicy]
    omega
  case retainedTotal =>
    refine ⟨tenants, fun tenant houtside => ?_, ?_, ?_⟩
    · rw [retainedOf_eq, hkept.outside tenant houtside]
      rfl
    · simp only [retainedOf_eq]
      exact hkept.retained
    · rw [← hpolicy]
      exact hkept.retained_le
  case order => exact hfinal.order
  case once => exact hfinal.nodup_order
  case waits => exact fun op next taken tenant waiter hline => hfinal.waits taken hline
  case idle =>
    intro permit back hidle
    refine ⟨?_, fun tenant hlt => hfinal.idle hidle hlt⟩
    rcases grantFrom_permit permit final.isLive final.round.ring final.round with hback | hgranted
    · cases hidle.symm.trans hback
      rfl
    · obtain ⟨tenant, waiter, hgranted⟩ := hgranted
      cases hidle.symm.trans hgranted
  case immediate =>
    intro asking waiter acquire permit htaken
    obtain ⟨hacquire, hring⟩ := immediate_spec htaken
    exact ⟨hacquire, fun tenant hlt => hfinal.line_eq_nil hring hlt⟩
  case work =>
    unfold potential at hpotential
    omega

instance World.decidablePossible (world : World τ W) (op : Op τ W P) :
    Decidable (world.Possible op) :=
  match op with
  | .arrive _ waiter _ => inferInstanceAs (Decidable (waiter ∉ world.joined.map Prod.snd))
  | .tryArrive _ _ | .grant _ => .isTrue trivial
  | .noteRelease tenant => inferInstanceAs (Decidable (tenant ∈ world.admitted))
  | .noteAbandoned tenant waiter => inferInstanceAs (Decidable (waiter ∈ world.line tenant))

/-- One tenant at its ceiling, with one waiter behind it who goes away and another who is served
when the ceiling lets it. -/
def busyCalls : List (Op Nat Nat Unit) :=
  [.arrive 0 10 (some ()), .arrive 0 11 none, .arrive 0 12 none, .noteAbandoned 0 11,
    .tryArrive 1 (some ()), .noteRelease 0, .grant (), .grant ()]

theorem tenants_isolated_busy : FairAdmission Unit (.new 1 2) 8
    (busyCalls.foldl World.act (.new (.new 1 2))) :=
  tenants_isolated (Run.ofEnabled World.act (.new (.new 1 2)) busyCalls fun taken hmem =>
    ⟨(by decide +kernel : ∀ taken ∈ traceOf World.act (.new (.new 1 2)) busyCalls,
      taken.1.Possible taken.2) taken hmem, rfl⟩)

end LogicalWorks.Fair
