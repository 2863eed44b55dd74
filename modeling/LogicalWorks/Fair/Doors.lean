import LogicalWorks.Fair.Isolation

/-! The door that waits and the door that refuses, compared over what a run leaves. -/
namespace LogicalWorks.Fair
open DeficitRoundRobin

variable {τ W P : Type} [DecidableEq τ]

theorem World.round_arrived (world : World τ W) (tenant : τ) (waiter : W)
    (arrived : Arrival P × DeficitRoundRobin τ W) :
    (world.arrived tenant waiter arrived).round = arrived.2 := by
  obtain ⟨arrival, round⟩ := arrived
  cases arrival <;> rfl

theorem World.round_tried (world : World τ W) (tenant : τ)
    (tried : TryArrival P × DeficitRoundRobin τ W) : (world.tried tenant tried).round = tried.2 := by
  obtain ⟨arrival, round⟩ := tried
  cases arrival <;> rfl

theorem World.round_granted (world : World τ W)
    (granted : GrantOutcome τ W P × DeficitRoundRobin τ W) :
    (world.granted granted).round = granted.2 := by
  obtain ⟨outcome, round⟩ := granted
  cases outcome <;> rfl

def Tidied (round : DeficitRoundRobin τ W) : Prop :=
  ∀ tenant entry, round.entries.get tenant = some entry → entry.isIdle = false

namespace Tidied

variable {round : DeficitRoundRobin τ W} {tenant : τ} {entry : Entry W} {waiter : W}

theorem new (policy : TenancyPolicy τ) : Tidied (.new policy : DeficitRoundRobin τ W) := by
  intro tenant entry hget
  cases hget

theorem beside (h : Tidied round) {next : DeficitRoundRobin τ W}
    (hentries : next.entries = round.entries) : Tidied next := by
  intro tenant entry hget
  rw [hentries] at hget
  exact h tenant entry hget

theorem place (h : Tidied round) (hidle : entry.isIdle = false) :
    Tidied (round.place tenant entry) := by
  intro other held hget
  unfold DeficitRoundRobin.place at hget
  rw [Index.get_insert] at hget
  split at hget
  · cases hget
    exact hidle
  · exact h other held hget

theorem tidy (h : Tidied round) : Tidied (round.tidy tenant entry) := by
  unfold DeficitRoundRobin.tidy
  split
  · intro other held hget
    rw [Index.get_erase] at hget
    split at hget
    · cases hget
    · exact h other held hget
  · rename_i hidle
    exact h.place (Bool.not_eq_true _ ▸ hidle)

theorem tidy_same (h : Tidied round) (tenant : τ) :
    round.tidy tenant (round.entry tenant) = round := by
  unfold DeficitRoundRobin.tidy DeficitRoundRobin.place
  cases hget : round.entries.get tenant with
  | none =>
    have hentry : round.entry tenant = .default := by
      unfold DeficitRoundRobin.entry
      rw [hget]
      rfl
    have hsame : round.entries.erase tenant = round.entries := by
      funext other
      change (round.entries.erase tenant).get other = round.entries.get other
      rw [Index.get_erase]
      split
      · rename_i heq
        rw [heq, hget]
      · rfl
    have hidle : (Entry.default : Entry W).isIdle = true := rfl
    rw [hentry, if_pos hidle, hsame]
  | some held =>
    have hentry : round.entry tenant = held := by
      unfold DeficitRoundRobin.entry
      rw [hget]
      rfl
    have hsame : round.entries.insert tenant held = round.entries := by
      funext other
      change (round.entries.insert tenant held).get other = round.entries.get other
      rw [Index.get_insert]
      split
      · rename_i heq
        rw [heq, hget]
      · rfl
    rw [hentry, if_neg (by simp [h tenant held hget]), hsame]

theorem join (h : Tidied round) : Tidied (round.join tenant waiter) := by
  unfold DeficitRoundRobin.join DeficitRoundRobin.arm
  dsimp only
  split
  · exact place (h.beside rfl) (by simp [Entry.isIdle])
  · exact place (h.beside rfl) (by simp [Entry.isIdle, Entry.push])

theorem enqueue (h : Tidied round) : Tidied (round.enqueue (P := P) tenant waiter).2 := by
  unfold DeficitRoundRobin.enqueue
  dsimp only
  split
  · exact h.tidy
  · split
    · exact h.tidy
    · exact h.join

theorem arrive (h : Tidied round) (acquire : Option P) :
    Tidied (round.arrive tenant waiter acquire).2 := by
  have hstepped : Tidied (round.step 1) := h.beside rfl
  unfold DeficitRoundRobin.arrive
  dsimp only
  split
  · cases acquire with
    | none => exact hstepped.enqueue
    | some permit => exact hstepped.place (by simp [Entry.isIdle, Entry.charge])
  · exact hstepped.enqueue

theorem tryArrive (h : Tidied round) (acquire : Option P) :
    Tidied (round.tryArrive tenant acquire).2 := by
  have hstepped : Tidied (round.step 1) := h.beside rfl
  unfold DeficitRoundRobin.tryArrive
  dsimp only
  split
  · exact hstepped
  · cases acquire with
    | none => exact hstepped
    | some permit => exact hstepped.place (by simp [Entry.isIdle, Entry.charge])

theorem noteRelease (h : Tidied round) : Tidied (round.noteRelease tenant) := by
  have hstepped : Tidied (round.step 1) := h.beside rfl
  unfold DeficitRoundRobin.noteRelease
  dsimp only
  split
  · exact hstepped
  · split
    · exact hstepped.tidy
    · apply tidy
      unfold DeficitRoundRobin.arm
      split
      · exact hstepped.beside rfl
      · exact hstepped

/-- A queue that is rebuilt empty belongs to a tenant at its ceiling or on the ring. -/
theorem noteAbandoned {live : W → Bool} {tenants : Finset τ} (h : Tidied round)
    (kept : Kept live tenants round) (isLive : W → Bool) :
    Tidied (round.noteAbandoned tenant isLive) := by
  have hstepped : Tidied (round.step 1) := h.beside rfl
  unfold DeficitRoundRobin.noteAbandoned
  dsimp only
  cases hget : (round.step 1).entries.get tenant with
  | none => exact hstepped
  | some entry =>
    have hidle := hstepped tenant entry hget
    dsimp only
    split
    · rename_i houtnumbered
      have hqueue : entry.queue ≠ [] := by
        intro hempty
        simp [Entry.leave, Entry.live, hempty] at houtnumbered
      have hentry : round.entry tenant = entry := by
        unfold DeficitRoundRobin.entry
        change ((round.step 1).entries.get tenant).getD .default = entry
        rw [hget]
        rfl
      have hbusy : entry.inFlight ≠ 0 ∨ entry.onRing = true := by
        by_cases hnone : entry.inFlight = 0
        · right
          rw [← hentry] at hqueue hnone ⊢
          apply (kept.sound tenant).onRing.mpr
          apply kept.servable tenant hqueue
          rw [hnone]
          exact round.policy.limit_pos
        · exact Or.inl hnone
      have hrebuilt : Tidied ((round.step 1).place tenant (entry.leave.rebuild isLive)) := by
        apply hstepped.place
        rcases hbusy with hflight | hon
        · simp [Entry.isIdle, Entry.rebuild, Entry.leave, hflight]
        · simp [Entry.isIdle, Entry.rebuild, Entry.leave, hon]
      exact hrebuilt.beside rfl
    · exact hstepped.place hidle

theorem hand (h : Tidied round) (front : τ) (rest : List τ) (entry : Entry W) (behind : List W) :
    Tidied (round.hand front rest entry behind) := by
  unfold DeficitRoundRobin.hand
  dsimp only
  split
  · exact tidy (h.beside rfl)
  · split
    · exact place (h.beside rfl) (by simp [Entry.isIdle])
    · exact place (h.beside rfl) (by simp [Entry.isIdle])

theorem grantFrom (permit : P) (isLive : W → Bool) (ring : List τ) (h : Tidied round) :
    Tidied (DeficitRoundRobin.grantFrom permit isLive ring round).2 := by
  induction ring generalizing round with
  | nil => exact h.beside rfl
  | cons front rest ih =>
    unfold DeficitRoundRobin.grantFrom
    cases hget : (round.step 1).entries.get front with
    | none => exact ih (h.beside rfl)
    | some entry =>
      dsimp only
      have hskipped : Tidied ((round.step 1).skip entry isLive).1 := h.beside rfl
      cases hqueue : ((round.step 1).skip entry isLive).2.queue with
      | nil =>
        apply ih
        unfold DeficitRoundRobin.retire
        exact tidy (hskipped.beside rfl)
      | cons waiter behind =>
        exact hskipped.hand front rest ((round.step 1).skip entry isLive).2 behind

variable [DecidableEq W] {policy : TenancyPolicy τ} {world next final : World τ W}

theorem act {op : Op τ W P} (h : Tidied world.round) (isolated : Isolated policy world)
    (taken : world.Step op next) : Tidied next.round := by
  obtain ⟨-, rfl⟩ := taken
  cases op with
  | arrive tenant waiter acquire =>
    change Tidied (world.arrived tenant waiter (world.round.arrive tenant waiter acquire)).round
    rw [World.round_arrived]
    exact h.arrive acquire
  | tryArrive tenant acquire =>
    change Tidied (world.tried tenant (world.round.tryArrive tenant acquire)).round
    rw [World.round_tried]
    exact h.tryArrive acquire
  | grant permit =>
    change Tidied (world.granted (world.round.grant permit world.isLive)).round
    rw [World.round_granted]
    exact h.grantFrom permit world.isLive world.round.ring
  | noteRelease tenant => exact h.noteRelease
  | noteAbandoned tenant waiter =>
    obtain ⟨tenants, hkept, -⟩ := isolated.kept
    exact h.noteAbandoned hkept _

theorem run {trace : List (World τ W × Op τ W P)}
    (h : Run World.Step (.new policy) trace final) : Tidied final.round := by
  have hfinal : Isolated policy final ∧ Tidied final.round := by
    apply h.always ⟨.new policy, .new policy⟩
    rintro world op next ⟨hisolated, htidied⟩ hstep
    exact ⟨hisolated.step hstep, htidied.act hisolated hstep⟩
  exact hfinal.2

end Tidied

structure Unmoved (round next : DeficitRoundRobin τ W) : Prop where
  policy : next.policy = round.policy
  entries : next.entries = round.entries
  ring : next.ring = round.ring
  retained : next.retained = round.retained

variable {round : DeficitRoundRobin τ W} {tenant : τ} {waiter : W} {acquire : Option P}
  {permit : P}

theorem Tidied.unmoved_of_refused (h : Tidied round) {limit : Nat}
    (hrefused : (round.arrive tenant waiter acquire).1 = .refused limit ∨
      (round.arrive tenant waiter acquire).1 = .supervisorFull limit) :
    Unmoved round (round.arrive tenant waiter acquire).2 := by
  have hsame : (round.step 1).tidy tenant ((round.step 1).entry tenant) = round.step 1 := by
    apply tidy_same
    exact h.beside rfl
  have henqueue : ((round.step 1).enqueue (P := P) tenant waiter).1 = .refused limit ∨
      ((round.step 1).enqueue (P := P) tenant waiter).1 = .supervisorFull limit →
      Unmoved round ((round.step 1).enqueue (P := P) tenant waiter).2 := by
    intro hfull
    unfold DeficitRoundRobin.enqueue at hfull ⊢
    dsimp only at hfull ⊢
    rw [hsame] at hfull ⊢
    split at hfull
    · rename_i hqueue
      rw [if_pos hqueue]
      exact ⟨rfl, rfl, rfl, rfl⟩
    · rename_i hqueue
      split at hfull
      · rename_i htotal
        rw [if_neg hqueue, if_pos htotal]
        exact ⟨rfl, rfl, rfl, rfl⟩
      · rcases hfull with hfull | hfull
        · cases hfull
        · cases hfull
  unfold DeficitRoundRobin.arrive at hrefused ⊢
  dsimp only at hrefused ⊢
  split
  · rename_i hfree
    rw [if_pos hfree] at hrefused
    cases acquire with
    | none => exact henqueue hrefused
    | some permit =>
      rcases hrefused with hrefused | hrefused
      · cases hrefused
      · cases hrefused
  · rename_i hbusy
    rw [if_neg hbusy] at hrefused
    exact henqueue hrefused

theorem arrive_immediate_iff [DecidableEq W] :
    (round.arrive tenant waiter acquire).1 = .immediate permit ↔
      round.ring = [] ∧ round.inFlightOf tenant < round.policy.perTenantLimit ∧
        acquire = some permit := by
  constructor
  · intro h
    obtain ⟨hacquire, hring⟩ := immediate_spec (Or.inl h)
    refine ⟨hring, ?_, hacquire⟩
    rw [inFlightOf_eq]
    by_contra hlimit
    subst hacquire
    unfold DeficitRoundRobin.arrive at h
    dsimp only at h
    rw [if_neg (fun hfree => hlimit hfree.2)] at h
    unfold DeficitRoundRobin.enqueue at h
    dsimp only at h
    split at h
    · cases h
    · split at h
      · cases h
      · cases h
  · rintro ⟨hring, hlimit, rfl⟩
    rw [inFlightOf_eq] at hlimit
    unfold DeficitRoundRobin.arrive
    dsimp only
    rw [if_pos ⟨hring, hlimit⟩]

theorem tryArrive_immediate_iff :
    (round.tryArrive tenant acquire).1 = .immediate permit ↔
      round.ring = [] ∧ round.entries.get tenant = none ∧ acquire = some permit := by
  unfold DeficitRoundRobin.tryArrive
  dsimp only
  change (if round.ring ≠ [] ∨ (round.entries.get tenant).isSome = true then _ else _ :
    TryArrival P × DeficitRoundRobin τ W).1 = _ ↔ _
  split
  · rename_i hheld
    constructor
    · intro h
      cases h
    · rintro ⟨hring, hget, -⟩
      rcases hheld with hheld | hheld
      · exact absurd hring hheld
      · rw [hget] at hheld
        cases hheld
  · rename_i hfree
    obtain ⟨hring, hget⟩ := not_or.mp hfree
    rw [Option.isSome_iff_ne_none, not_not] at hget
    cases acquire with
    | none => simp
    | some given => simp [not_not.mp hring, hget]

theorem tryArrive_contended
    (h : ∀ permit, (round.tryArrive tenant acquire).1 ≠ .immediate permit) :
    (round.tryArrive tenant acquire).1 = .contended ∧
      Unmoved round (round.tryArrive tenant acquire).2 := by
  unfold DeficitRoundRobin.tryArrive at h ⊢
  dsimp only at h ⊢
  split
  · exact ⟨rfl, rfl, rfl, rfl, rfl⟩
  · rename_i hfree
    rw [if_neg hfree] at h
    cases acquire with
    | none => exact ⟨rfl, rfl, rfl, rfl, rfl⟩
    | some permit => exact absurd rfl (h permit)

variable [DecidableEq W]

def World.Unawaited (policy : TenancyPolicy τ) (world : World τ W) : Prop :=
  ∀ tenant, world.round.inFlightOf tenant < policy.perTenantLimit → world.line tenant = []

/-- The two doors admit alike: an arrival is let in at once where nobody who could be served waits,
its tenant is under its ceiling and the pool has a permit, and a refusal leaves the round alone. -/
structure DoorsAgree (policy : TenancyPolicy τ) (world : World τ W) (tenant : τ) (waiter : W)
    (acquire : Option P) : Prop where
  admits : ∀ permit, (world.round.arrive tenant waiter acquire).1 = .immediate permit ↔
    world.Unawaited policy ∧ world.round.inFlightOf tenant < policy.perTenantLimit ∧
      acquire = some permit
  alike : ∀ permit, (world.round.tryArrive tenant acquire).1 = .immediate permit ↔
    (world.round.arrive tenant waiter acquire).1 = .immediate permit
  contended : (∀ permit, (world.round.tryArrive tenant acquire).1 ≠ .immediate permit) →
    (world.round.tryArrive tenant acquire).1 = .contended ∧
      Unmoved world.round (world.round.tryArrive tenant acquire).2
  refused : ∀ limit, (world.round.arrive tenant waiter acquire).1 = .refused limit ∨
      (world.round.arrive tenant waiter acquire).1 = .supervisorFull limit →
    Unmoved world.round (world.round.arrive tenant waiter acquire).2

variable {policy : TenancyPolicy τ} {world final : World τ W}

/-- Behind an empty ring a tenant under its ceiling has an entry exactly for what it has in
flight. -/
theorem Isolated.get_eq_none_iff (isolated : Isolated policy world) (tidied : Tidied world.round)
    (hring : world.round.ring = []) (hlimit : world.round.inFlightOf tenant < policy.perTenantLimit) :
    world.round.entries.get tenant = none ↔ world.round.inFlightOf tenant = 0 := by
  obtain ⟨tenants, hkept, -⟩ := isolated.kept
  constructor
  · intro hget
    unfold DeficitRoundRobin.inFlightOf
    rw [hget]
  · intro hnone
    rw [inFlightOf_eq] at hnone hlimit
    rw [← isolated.policy_eq] at hlimit
    have hqueue : (world.round.entry tenant).queue = [] := by
      by_contra hwaiting
      have hmem := hkept.servable tenant hwaiting hlimit
      rw [hring] at hmem
      cases hmem
    have hoff : (world.round.entry tenant).onRing = false := by
      rw [← Bool.not_eq_true, (hkept.sound tenant).onRing, hring]
      exact List.not_mem_nil
    cases hget : world.round.entries.get tenant with
    | none => rfl
    | some entry =>
      have hentry : world.round.entry tenant = entry := by
        unfold DeficitRoundRobin.entry
        rw [hget]
        rfl
      rw [hentry] at hqueue hnone hoff
      have hidle := tidied tenant entry hget
      simp [Entry.isIdle, hqueue, hnone, hoff] at hidle

/-- The doors agree about an arrival exactly where, if it could be let in at once, the ring is
empty and its tenant has nothing in flight. -/
theorem doors_agree_iff {trace : List (World τ W × Op τ W P)}
    (h : Run World.Step (.new policy) trace final) (tenant : τ) (waiter : W) (acquire : Option P) :
    DoorsAgree policy final tenant waiter acquire ↔
      (acquire.isSome = true → final.round.inFlightOf tenant < policy.perTenantLimit →
        final.Unawaited policy →
          final.round.ring = [] ∧ final.round.inFlightOf tenant = 0) := by
  have hisolated := Isolated.run h
  have htidied := Tidied.run h
  have hpolicy := hisolated.policy_eq
  constructor
  · intro hagree hsome hlimit hunawaited
    obtain ⟨permit, rfl⟩ := Option.isSome_iff_exists.mp hsome
    have hadmitted := (hagree.admits permit).mpr ⟨hunawaited, hlimit, rfl⟩
    obtain ⟨hring, hget, -⟩ := tryArrive_immediate_iff.mp ((hagree.alike permit).mpr hadmitted)
    exact ⟨hring, (hisolated.get_eq_none_iff htidied hring hlimit).mp hget⟩
  · intro hfree
    constructor
    case admits =>
      intro permit
      rw [arrive_immediate_iff, hpolicy]
      constructor
      · rintro ⟨hring, hlimit, hacquire⟩
        refine ⟨?_, hlimit, hacquire⟩
        intro other hother
        exact hisolated.line_eq_nil hring hother
      · rintro ⟨hunawaited, hlimit, hacquire⟩
        refine ⟨?_, hlimit, hacquire⟩
        exact (hfree (Option.isSome_iff_exists.mpr ⟨permit, hacquire⟩) hlimit hunawaited).1
    case alike =>
      intro permit
      rw [arrive_immediate_iff, tryArrive_immediate_iff, hpolicy]
      constructor
      · rintro ⟨hring, hget, hacquire⟩
        refine ⟨hring, ?_, hacquire⟩
        unfold DeficitRoundRobin.inFlightOf
        rw [hget]
        exact policy.limit_pos
      · rintro ⟨hring, hlimit, hacquire⟩
        refine ⟨hring, ?_, hacquire⟩
        rw [hisolated.get_eq_none_iff htidied hring hlimit]
        have hunawaited : final.Unawaited policy := by
          intro other hother
          exact hisolated.line_eq_nil hring hother
        exact (hfree (Option.isSome_iff_exists.mpr ⟨permit, hacquire⟩) hlimit hunawaited).2
    case contended => exact tryArrive_contended
    case refused =>
      intro limit hrefused
      exact htidied.unmoved_of_refused hrefused

def halfBusy : World Nat Nat :=
  [(.arrive 0 10 (some ()) : Op Nat Nat Unit)].foldl World.act (.new (.new 2 4))

def deserted : World Nat Nat :=
  [(.arrive 0 10 none : Op Nat Nat Unit), .noteAbandoned 0 10].foldl World.act (.new (.new 2 4))

theorem run_halfBusy : Run World.Step (.new (.new 2 4)) (traceOf World.act (.new (.new 2 4))
    [(.arrive 0 10 (some ()) : Op Nat Nat Unit)]) halfBusy :=
  Run.ofEnabled World.act (.new (.new 2 4)) _ fun taken hmem =>
    ⟨(by decide +kernel : ∀ taken ∈ traceOf World.act (.new (.new 2 4))
      [(.arrive 0 10 (some ()) : Op Nat Nat Unit)], taken.1.Possible taken.2) taken hmem, rfl⟩

/-- With nobody waiting, a permit to be had and its tenant under the ceiling, an arrival is refused
at one door and let in at the other, or let in at neither. -/
theorem doors_differ :
    (halfBusy.round.arrive 0 11 (some ())).1 = .immediate () ∧
      (halfBusy.round.tryArrive 0 (some ())).1 = .contended ∧
      ¬ DoorsAgree (.new 2 4) halfBusy 0 11 (some ()) ∧
      (∀ tenant, deserted.line tenant = []) ∧
      (deserted.round.arrive 1 11 (some ())).1 = .queued ∧
      ¬ DoorsAgree (.new 2 4) deserted 1 11 (some ()) := by
  have hwaits : (deserted.round.arrive 1 11 (some ())).1 = .queued := by decide +kernel
  have hcontended : (halfBusy.round.tryArrive 0 (some ())).1 = .contended := by decide +kernel
  have hadmitted : (halfBusy.round.arrive 0 11 (some ())).1 = .immediate () := by decide +kernel
  have hnobody : ∀ tenant, deserted.line tenant = [] := by
    intro tenant
    by_cases htenant : tenant = 0
    · subst htenant
      decide +kernel
    · have hget : deserted.round.entries.get tenant = none := by
        change (if tenant = 0 then _ else if tenant = 0 then _ else none) = none
        rw [if_neg htenant, if_neg htenant]
      unfold World.line DeficitRoundRobin.line DeficitRoundRobin.entry
      rw [hget]
      rfl
  refine ⟨hadmitted, hcontended, ?_, hnobody, hwaits, ?_⟩
  · intro hagree
    have himmediate := (hagree.alike ()).mpr hadmitted
    rw [hcontended] at himmediate
    cases himmediate
  · intro hagree
    have hunder : deserted.round.inFlightOf 1 < (TenancyPolicy.new 2 4 : TenancyPolicy Nat).perTenantLimit := by
      decide +kernel
    have himmediate := (hagree.admits ()).mpr ⟨fun tenant _ => hnobody tenant, hunder, rfl⟩
    rw [hwaits] at himmediate
    cases himmediate

theorem doors_agree_halfBusy : DoorsAgree (.new 2 4) halfBusy 1 11 (some ()) ↔
    ((some () : Option Unit).isSome = true →
      halfBusy.round.inFlightOf 1 < (TenancyPolicy.new 2 4 : TenancyPolicy Nat).perTenantLimit →
        halfBusy.Unawaited (.new 2 4) →
          halfBusy.round.ring = [] ∧ halfBusy.round.inFlightOf 1 = 0) :=
  doors_agree_iff run_halfBusy 1 11 (some ())

end LogicalWorks.Fair
