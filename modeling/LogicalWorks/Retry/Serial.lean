import LogicalWorks.Retry.Bound

/-! Calls taken one after another: each comes to what its function computes, and credit above the
reserve expires. -/
namespace LogicalWorks.Retry
open Token (Duration)

def Action.Of (call : Nat) (reading : Duration) : Action → Prop
  | .call _ => False
  | .read other seen => other = call ∧ seen = reading
  | .judge other | .fetch other | .exchange other | .miss other | .refuse other | .stamp other =>
    other = call

def Served (world : World) (kind : Kind) (reading : Duration) (next : World) : Prop :=
  ∃ trace, Run Step { world with calls := world.calls ++ [⟨kind, world.policy.entry⟩] } trace next ∧
    (∀ taken ∈ trace, taken.2.Of world.calls.length reading) ∧
    ∃ granted, next.calls[world.calls.length]? = some ⟨kind, .returned granted⟩

def Policy.serve (policy : Policy) (kind : Kind) (reading : Duration) : Bool × Policy :=
  match kind with
  | .firstAttempt => (false, policy.firstAttempt reading)
  | .takeRetry => policy.takeRetry reading

def Halfway (policy : Policy) (kind : Kind) (reading : Duration) (now : Policy) : Stage → Prop
  | .entered => now = policy ∧ policy.window.isSome
  | .clocked read => now = policy ∧ policy.window.isSome ∧ read = durationToNanos reading
  | .judged read stale =>
    now = policy ∧ (policy.window.isSome → read = durationToNanos reading) ∧
      stale = policy.staleAt (durationToNanos reading)
  | .trying read stale seen =>
    now = policy ∧ (policy.window.isSome → read = durationToNanos reading) ∧
      stale = policy.staleAt (durationToNanos reading) ∧ seen = policy.retries
  | .stamping read => kind = .firstAttempt ∧ now.stamp read = policy.firstAttempt reading
  | .returned granted => policy.serve kind reading = (granted, now)

theorem Halfway.entry (policy : Policy) (kind : Kind) (reading : Duration) :
    Halfway policy kind reading policy policy.entry := by
  unfold Policy.entry
  cases hwindow : policy.window with
  | none =>
    refine ⟨rfl, ?_, ?_⟩
    · rw [hwindow]
      intro h
      cases h
    · unfold Policy.staleAt
      rw [hwindow]
  | some window => exact ⟨rfl, by rw [hwindow]; rfl⟩

section Exchange

variable {policy : Policy} {kind : Kind} {reading : Duration} {read next : Nat}

theorem Halfway.exchanged (hread : policy.window.isSome → read = durationToNanos reading)
    (hnext : policy.update kind (policy.staleAt (durationToNanos reading)) policy.retries = some next) :
    Halfway policy kind reading { policy with retries := next } (policy.settled kind read) := by
  cases kind with
  | takeRetry =>
    change policy.takeRetry reading = (true, { policy with retries := next })
    unfold Policy.takeRetry
    rw [hnext]
  | firstAttempt =>
    have hfirst : policy.firstAttempt reading =
        ({ policy with retries := next } : Policy).stamp (durationToNanos reading) := by
      unfold Policy.firstAttempt
      simp only [hnext]
    unfold Policy.settled
    cases hwindow : policy.window with
    | none =>
      change (false, policy.firstAttempt reading) = (false, _)
      rw [hfirst]
      unfold Policy.stamp
      simp only [hwindow, Option.map_none]
    | some window =>
      refine ⟨rfl, ?_⟩
      rw [hfirst, hread (by rw [hwindow]; rfl), hwindow]

theorem Halfway.refused
    (hnone : policy.update kind (policy.staleAt (durationToNanos reading)) policy.retries = none) :
    Halfway policy kind reading policy (.returned false) := by
  cases refused_kind hnone
  change policy.takeRetry reading = (false, policy)
  unfold Policy.takeRetry
  rw [hnone]

end Exchange

def Alone (base : World) (kind : Kind) (reading : Duration) (now : World) : Prop :=
  ∃ stage, now.calls = base.calls ++ [⟨kind, stage⟩] ∧
    Halfway base.policy kind reading now.policy stage

theorem set_last {α : Type} (items : List α) (old new : α) :
    (items ++ [old]).set items.length new = items ++ [new] := by
  induction items with
  | nil => rfl
  | cons first rest ih => exact congrArg (first :: ·) ih

section Alone

variable {base now next : World} {kind : Kind} {reading : Duration} {action : Action}

theorem Alone.found {found : Call} (h : Alone base kind reading now)
    (hcall : now.calls[base.calls.length]? = some found) :
    found.kind = kind ∧ now.calls = base.calls ++ [found] ∧
      Halfway base.policy kind reading now.policy found.stage := by
  obtain ⟨stage, hcalls, hhalfway⟩ := h
  rw [hcalls, List.getElem?_concat_length] at hcall
  cases hcall
  exact ⟨rfl, hcalls, hhalfway⟩

theorem Alone.moved {found : Call} {policy : Policy} {stage : Stage}
    (hcalls : now.calls = base.calls ++ [found])
    (hhalfway : Halfway base.policy kind reading policy stage) :
    Alone base kind reading ⟨policy, now.calls.set base.calls.length ⟨kind, stage⟩⟩ := by
  refine ⟨stage, ?_, hhalfway⟩
  dsimp only
  rw [hcalls, set_last]

theorem Alone.step (h : Alone base kind reading now) (hof : action.Of base.calls.length reading)
    (hstep : Step now action next) : Alone base kind reading next := by
  cases hstep with
  | call other => cases hof
  | read seen hcall =>
    obtain ⟨rfl, rfl⟩ := hof
    obtain ⟨rfl, hcalls, hnow, hwindow⟩ := h.found hcall
    exact .moved hcalls ⟨hnow, hwindow, rfl⟩
  | judge hcall hw =>
    cases hof
    obtain ⟨rfl, hcalls, hnow, hwindow, hread⟩ := h.found hcall
    refine .moved hcalls ⟨hnow, fun _ => hread, ?_⟩
    rw [hnow] at hw
    unfold Policy.staleAt
    rw [hw, hread]
  | fetch hcall =>
    cases hof
    obtain ⟨rfl, hcalls, hnow, hread, hstale⟩ := h.found hcall
    exact .moved hcalls ⟨hnow, hread, hstale, congrArg Policy.retries hnow⟩
  | miss hcall hnext =>
    cases hof
    obtain ⟨rfl, hcalls, hnow, hread, hstale, hseen⟩ := h.found hcall
    exact .moved hcalls ⟨hnow, hread, hstale, congrArg Policy.retries hnow⟩
  | exchange hcall hnext hsame =>
    cases hof
    obtain ⟨rfl, hcalls, hnow, hread, hstale, hseen⟩ := h.found hcall
    rw [hnow, hstale, hseen] at hnext
    rw [hnow]
    exact .moved hcalls (Halfway.exchanged hread hnext)
  | refuse hcall hnone =>
    cases hof
    obtain ⟨rfl, hcalls, hnow, hread, hstale, hseen⟩ := h.found hcall
    rw [hnow, hstale, hseen] at hnone
    refine .moved hcalls ?_
    rw [hnow]
    exact Halfway.refused hnone
  | stamp hcall =>
    cases hof
    obtain ⟨rfl, hcalls, hfirst, hstamped⟩ := h.found hcall
    refine .moved hcalls ?_
    rw [hstamped]
    dsimp only at hfirst
    rw [hfirst]
    exact rfl

end Alone

theorem Served.spec {world next : World} {kind : Kind} {reading : Duration}
    (h : Served world kind reading next) :
    next.policy = (world.policy.serve kind reading).2 ∧
      next.calls = world.calls ++ [⟨kind, .returned (world.policy.serve kind reading).1⟩] := by
  obtain ⟨trace, run, hof, granted, hreturned⟩ := h
  have halone : Alone world kind reading next :=
    @Run.invariant _ _ _ _ _ _ (Alone world kind reading)
      (fun _ action => action.Of world.calls.length reading) run
      ⟨_, rfl, Halfway.entry world.policy kind reading⟩
      (fun _ _ _ halone hof hstep => halone.step hof hstep) hof
  obtain ⟨-, hcalls, hserve⟩ := halone.found hreturned
  rw [hserve]
  exact ⟨rfl, hcalls⟩

inductive Serial (start : World) : List (Kind × Duration) → World → Prop where
  | refl : Serial start [] start
  | snoc {history : List (Kind × Duration)} {world next : World} {kind : Kind} {reading : Duration}
      (before : Serial start history world) (served : Served world kind reading next) :
      Serial start (history ++ [(kind, reading)]) next

section Existence

def Ends (call : Nat) (kind : Kind) (reading : Duration) (world : World) : Prop :=
  ∃ trace next, Run Step world trace next ∧ (∀ taken ∈ trace, taken.2.Of call reading) ∧
    ∃ granted, next.calls[call]? = some ⟨kind, .returned granted⟩

variable {world next : World} {call : Nat} {kind : Kind} {reading : Duration}

theorem Ends.step {action : Action} (hstep : Step world action next) (hof : action.Of call reading)
    (h : Ends call kind reading next) : Ends call kind reading world := by
  obtain ⟨trace, last, hrun, hall, hreturned⟩ := h
  refine ⟨(world, action) :: trace, last, Run.trans (.snoc .refl hstep) hrun, ?_, hreturned⟩
  intro taken hmem
  rcases List.mem_cons.mp hmem with rfl | hlater
  · exact hof
  · exact hall taken hlater

theorem moved_entry {policy : Policy} {old : Call} (stage : Stage)
    (h : world.calls[call]? = some old) :
    (World.mk policy (world.calls.set call ⟨kind, stage⟩)).calls[call]? = some ⟨kind, stage⟩ :=
  List.getElem?_set_self (List.getElem?_eq_some_iff.mp h).1

theorem ends_returned {granted : Bool} (h : world.calls[call]? = some ⟨kind, .returned granted⟩) :
    Ends call kind reading world :=
  ⟨[], world, .refl, fun _ hmem => absurd hmem List.not_mem_nil, granted, h⟩

theorem ends_stamping {now : Nat} (h : world.calls[call]? = some ⟨kind, .stamping now⟩) :
    Ends call kind reading world :=
  .step (.stamp h) rfl (ends_returned (moved_entry _ h))

theorem ends_trying {now seen : Nat} {stale : Bool}
    (h : world.calls[call]? = some ⟨kind, .trying now stale seen⟩)
    (hseen : world.policy.retries = seen) : Ends call kind reading world := by
  cases hupdate : world.policy.update kind stale seen with
  | none => exact .step (.refuse h hupdate) rfl (ends_returned (moved_entry _ h))
  | some balance =>
    refine .step (.exchange h hupdate hseen) rfl ?_
    have hsettled := @moved_entry world call kind { world.policy with retries := balance } _
      (world.policy.settled kind now) h
    cases kind with
    | takeRetry => exact ends_returned hsettled
    | firstAttempt =>
      unfold Policy.settled at hsettled ⊢
      cases hwindow : world.policy.window with
      | none =>
        rw [hwindow] at hsettled
        exact ends_returned hsettled
      | some window =>
        rw [hwindow] at hsettled
        exact ends_stamping hsettled

theorem ends_judged {now : Nat} {stale : Bool}
    (h : world.calls[call]? = some ⟨kind, .judged now stale⟩) : Ends call kind reading world :=
  .step (.fetch h) rfl (ends_trying (moved_entry _ h) rfl)

theorem ends_entered {window : Window} (hwindow : world.policy.window = some window)
    (h : world.calls[call]? = some ⟨kind, .entered⟩) : Ends call kind reading world := by
  refine .step (.read reading h) ⟨rfl, rfl⟩ ?_
  have hclocked := @moved_entry world call kind world.policy _ (.clocked (durationToNanos reading)) h
  exact .step (.judge hclocked hwindow) rfl (ends_judged (moved_entry _ hclocked))

theorem served_exists (world : World) (kind : Kind) (reading : Duration) :
    ∃ next, Served world kind reading next := by
  have hentry : (world.calls ++ [Call.mk kind world.policy.entry])[world.calls.length]? =
      some ⟨kind, world.policy.entry⟩ := List.getElem?_concat_length
  have hends : Ends world.calls.length kind reading
      { world with calls := world.calls ++ [⟨kind, world.policy.entry⟩] } := by
    unfold Policy.entry at hentry ⊢
    cases hwindow : world.policy.window with
    | none =>
      rw [hwindow] at hentry
      exact ends_judged hentry
    | some window =>
      rw [hwindow] at hentry
      exact ends_entered hwindow hentry
  obtain ⟨trace, next, hrun, hof, hreturned⟩ := hends
  exact ⟨next, trace, hrun, hof, hreturned⟩

theorem serial_exists (start : World) (history : List (Kind × Duration)) :
    ∃ final, Serial start history final := by
  induction history using List.reverseRecOn with
  | nil => exact ⟨start, .refl⟩
  | append_singleton history last ih =>
    obtain ⟨world, hbefore⟩ := ih
    obtain ⟨next, hserved⟩ := served_exists world last.1 last.2
    exact ⟨next, hbefore.snoc hserved⟩

end Existence

section Serial

variable {start middle final : World} {history : List (Kind × Duration)}

def Policy.serveAll (policy : Policy) (history : List (Kind × Duration)) : Nat × Policy :=
  history.foldl (fun state call =>
    (state.1 + (state.2.serve call.1 call.2).1.toNat, (state.2.serve call.1 call.2).2)) (0, policy)

theorem Served.granted {world next : World} {kind : Kind} {reading : Duration}
    (h : Served world kind reading next) :
    next.granted = world.granted + (world.policy.serve kind reading).1.toNat := by
  rw [granted_eq, granted_eq, h.spec.2, List.countP_append, List.countP_singleton]
  congr 1
  cases kind with
  | firstAttempt => rfl
  | takeRetry =>
    cases (world.policy.serve .takeRetry reading).1 with
    | false => rfl
    | true => rfl

theorem Serial.spec (h : Serial start history final) :
    final.granted = start.granted + (start.policy.serveAll history).1 ∧
      final.policy = (start.policy.serveAll history).2 := by
  induction h with
  | refl => exact ⟨rfl, rfl⟩
  | @snoc history world next kind reading before served ih =>
    have hall : start.policy.serveAll (history ++ [(kind, reading)]) =
        ((start.policy.serveAll history).1 + (world.policy.serve kind reading).1.toNat,
          (world.policy.serve kind reading).2) := by
      unfold Policy.serveAll at ih ⊢
      rw [List.foldl_append, List.foldl_cons, List.foldl_nil, ← ih.2]
    rw [hall, served.granted, served.spec.1, ih.1, Nat.add_assoc]
    exact ⟨rfl, rfl⟩

end Serial

end LogicalWorks.Retry

/-! What the retry budget bounds, on a clock whose readings fit its nanoseconds. -/
namespace LogicalWorks.Retry
open Token (Duration)

section Window

variable {policy : Policy} {reading : Duration} {bound : Nat}

theorem takeRetry_window (policy : Policy) (reading : Duration) :
    (policy.takeRetry reading).2.window = policy.window := by
  unfold Policy.takeRetry
  split <;> rfl

theorem firstAttempt_window (policy : Policy) (reading : Duration) :
    (policy.firstAttempt reading).window =
      policy.window.map fun window => ⟨max window.earnedAt (durationToNanos reading)⟩ := by
  unfold Policy.firstAttempt Policy.stamp
  dsimp only
  split <;> rfl

def Policy.EarnedBy (policy : Policy) (bound : Nat) : Prop :=
  ∃ window, policy.window = some window ∧ window.earnedAt ≤ bound

theorem Policy.EarnedBy.serve {kind : Kind} (h : policy.EarnedBy bound)
    (hread : kind = .firstAttempt → durationToNanos reading ≤ bound) :
    (policy.serve kind reading).2.EarnedBy bound := by
  obtain ⟨window, hwindow, hle⟩ := h
  cases kind with
  | takeRetry => exact ⟨window, (takeRetry_window policy reading).trans hwindow, hle⟩
  | firstAttempt =>
    refine ⟨⟨max window.earnedAt (durationToNanos reading)⟩, ?_, ?_⟩
    · change (policy.firstAttempt reading).window = _
      rw [firstAttempt_window, hwindow]
      rfl
    · exact Nat.max_le.mpr ⟨hle, hread rfl⟩

theorem durationToNanos_le (reading : Duration) : durationToNanos reading ≤ reading.nanos := by
  unfold durationToNanos saturatingAdd saturatingMul Duration.asSecs Duration.subsecNanos
  omega

theorem durationToNanos_eq (h : reading.nanos ≤ u64Max) : durationToNanos reading = reading.nanos := by
  unfold durationToNanos saturatingAdd saturatingMul Duration.asSecs Duration.subsecNanos
  omega

theorem takeRetry_stale (hearned : policy.EarnedBy bound) (hfits : reading.nanos ≤ u64Max)
    (hlate : bound + retryTtlNanos < reading.nanos) :
    milli * (policy.takeRetry reading).1.toNat +
        min (policy.takeRetry reading).2.retries retryReserveMilli ≤
      min policy.retries retryReserveMilli := by
  obtain ⟨window, hwindow, hle⟩ := hearned
  have hstale : policy.staleAt (durationToNanos reading) = true := by
    unfold Policy.staleAt isStale
    rw [hwindow, durationToNanos_eq hfits]
    simp only [decide_eq_true_eq]
    omega
  unfold Policy.takeRetry Policy.update
  rw [hwindow, hstale]
  dsimp only
  cases hspent : checkedSub (clamp true policy.retries) milli with
  | none => simp
  | some rest =>
    have hrest := checkedSub_eq_some.mp hspent
    change min policy.retries retryReserveMilli = rest + milli at hrest
    simp only [Bool.toNat_true]
    omega

end Window

section Serial

variable {start middle final : World} {history late : List (Kind × Duration)} {bound : Nat}

theorem Serial.earnedBy (h : Serial start history final) (hstart : start.policy.EarnedBy bound)
    (hread : ∀ call ∈ history, call.1 = .firstAttempt → durationToNanos call.2 ≤ bound) :
    final.policy.EarnedBy bound := by
  induction h with
  | refl => exact hstart
  | snoc before served ih =>
    rw [served.spec.1]
    have hlast := hread _ (List.mem_append_right _ (List.mem_singleton_self _))
    exact (ih fun call hmem => hread call (List.mem_append_left _ hmem)).serve hlast

theorem Serial.stale (h : Serial middle late final) (hearned : middle.policy.EarnedBy bound)
    (hretries : ∀ call ∈ late, call.1 = .takeRetry)
    (hlate : ∀ call ∈ late, call.2.nanos ≤ u64Max ∧ bound + retryTtlNanos < call.2.nanos) :
    milli * final.granted + min final.policy.retries retryReserveMilli ≤
      milli * middle.granted + min middle.policy.retries retryReserveMilli := by
  induction h with
  | refl => exact Nat.le_refl _
  | @snoc history world next kind reading before served ih =>
    have hkept : ∀ call ∈ history, call ∈ history ++ [(kind, reading)] := fun _ hmem =>
      List.mem_append_left _ hmem
    have hlast : (kind, reading) ∈ history ++ [(kind, reading)] :=
      List.mem_append_right _ (List.mem_singleton_self _)
    have hearlier := ih (fun call hmem => hretries call (hkept call hmem))
      fun call hmem => hlate call (hkept call hmem)
    have hworld : world.policy.EarnedBy bound := by
      refine before.earnedBy hearned fun call hmem hfirst => ?_
      rw [hretries call (hkept call hmem)] at hfirst
      cases hfirst
    have hkind : kind = .takeRetry := hretries _ hlast
    subst hkind
    have hspent := takeRetry_stale hworld (hlate _ hlast).1 (hlate _ hlast).2
    rw [served.granted, served.spec.1, Nat.mul_add]
    change milli * (world.policy.takeRetry reading).1.toNat +
      min (world.policy.takeRetry reading).2.retries retryReserveMilli ≤ _ at hspent
    change milli * world.granted + milli * (world.policy.takeRetry reading).1.toNat +
      min (world.policy.takeRetry reading).2.retries retryReserveMilli ≤ _
    omega

end Serial

structure Budget (Readable : Duration → Prop) (policy : Policy) : Prop where
  /-- The reserve and a fifth of the first attempts, however the accesses interleave. -/
  granted_le : ∀ trace final, Run Step (.start policy) trace final →
    final.granted ≤ retryReserve + final.firsts / 5
  /-- A window holds twice the reserve at most. -/
  balance_le : ∀ trace final, policy.window.isSome → Run Step (.start policy) trace final →
    final.policy.retries ≤ 2 * retryReserveMilli
  /-- And grants no more than that between two first attempts. -/
  burst_le : ∀ before middle after final, policy.window.isSome →
    Run Step (.start policy) before middle → Run Step middle after final →
    (∀ taken ∈ after, ¬ Earns taken.1 taken.2) → final.granted ≤ middle.granted + 2 * retryReserve
  /-- Past the expiry only the reserve is left, until the next first attempt. -/
  expired_le : ∀ before last quiet late middle final, policy.window.isSome →
    Serial (.start policy) (before ++ (.firstAttempt, last) :: quiet) middle →
    Serial middle late final → (∀ call ∈ quiet ++ late, call.1 = .takeRetry) →
    (before ++ (.firstAttempt, last) :: quiet ++ late).Pairwise
      (fun earlier later => earlier.2.nanos ≤ later.2.nanos) →
    (∀ call ∈ late, Readable call.2 ∧ last.nanos + retryTtlNanos < call.2.nanos) →
    final.granted ≤ middle.granted + retryReserve
  /-- A refused retry exchanged nothing, and nothing but an exchange touches the balance. -/
  refused : ∀ trace final call, Run Step (.start policy) trace final →
    final.calls[call]? = some ⟨.takeRetry, .returned false⟩ →
    ∀ taken ∈ trace, taken.2 ≠ .exchange call
  held : ∀ trace world action next, Run Step (.start policy) trace world → Step world action next →
    (∀ call, action ≠ .exchange call) → next.policy.retries = world.policy.retries
  /-- The balance stays a word, and each exchange adds a fifth at most or takes one or more. -/
  wraps : ∀ trace world, Run Step (.start policy) trace world → world.policy.retries ≤ u64Max ∧
    ∀ action next, Step world action next → Effect world action next

theorem fresh_window {policy : Policy} (hfresh : policy.Fresh) (hwindow : policy.window.isSome) :
    policy.EarnedBy 0 := by
  rcases hfresh with rfl | rfl
  · cases hwindow
  · exact ⟨⟨0⟩, rfl, Nat.le_refl 0⟩

theorem monotone_last {before quiet late : List (Kind × Duration)} {last : Duration}
    {call : Kind × Duration}
    (hmonotone : (before ++ (.firstAttempt, last) :: quiet ++ late).Pairwise
      fun earlier later => earlier.2.nanos ≤ later.2.nanos)
    (hretries : ∀ call ∈ quiet ++ late, call.1 = .takeRetry)
    (hmem : call ∈ before ++ (.firstAttempt, last) :: quiet) (hfirst : call.1 = .firstAttempt) :
    call.2.nanos ≤ last.nanos := by
  rcases List.mem_append.mp hmem with hbefore | hafter
  · rw [List.append_assoc] at hmonotone
    exact (List.pairwise_append.mp hmonotone).2.2 call hbefore _ List.mem_cons_self
  · rcases List.mem_cons.mp hafter with rfl | hquiet
    · exact Nat.le_refl _
    · rw [hretries call (List.mem_append_left _ hquiet)] at hfirst
      cases hfirst

theorem budget_of_fresh {policy : Policy} (hfresh : policy.Fresh) :
    Budget (fun reading => reading.nanos ≤ u64Max) policy where
  granted_le trace final run := (accounted_of_run hfresh run).granted_le
  balance_le trace final hwindow run := by
    have hbounded := (accounted_of_run hfresh run).bounded
    unfold Policy.most at hbounded
    rw [window_of_run run] at hbounded
    change _ ≤ if policy.window.isSome = true then _ else _ at hbounded
    rw [if_pos hwindow] at hbounded
    unfold retryCeilingMilli retryEarnedCapMilli at hbounded
    omega
  burst_le before middle after final hwindow run further hquiet := by
    refine LogicalWorks.Retry.burst_le (accounted_of_run hfresh run) ?_ further hquiet
    rw [window_of_run run]
    exact hwindow
  expired_le before last quiet late middle final hwindow earlier later hretries hmonotone hlate := by
    have hearned : middle.policy.EarnedBy last.nanos := by
      obtain ⟨window, hwindow, hle⟩ := fresh_window hfresh hwindow
      refine earlier.earnedBy ⟨window, hwindow, hle.trans (Nat.zero_le _)⟩ ?_
      intro call hmem hfirst
      refine (durationToNanos_le call.2).trans ?_
      exact monotone_last hmonotone hretries hmem hfirst
    have hstale := later.stale hearned (fun call hmem => hretries call (List.mem_append_right _ hmem))
      hlate
    unfold milli retryReserveMilli milli retryReserve at hstale
    unfold retryReserve
    omega
  refused trace final call run h := refused_exchanged_nothing run h
  held trace world action next _ hstep hother := hstep.held hother
  wraps trace world run :=
    ⟨(accounted_of_run hfresh run).bounded.trans (Policy.most_le _), fun _ _ hstep => hstep.effect⟩

/-- The budget of a run and that of a host bound their retries on every clock read within its
nanoseconds. -/
theorem budget : Budget (fun reading => reading.nanos ≤ u64Max) .forThisMachine ∧
    Budget (fun reading => reading.nanos ≤ u64Max) .forThisHost :=
  ⟨budget_of_fresh (.inl rfl), budget_of_fresh (.inr rfl)⟩

def pastCeiling (nanos : Nat) (h : nanos ≤ retryTtlNanos + 1) : Duration :=
  ⟨u64Max + nanos, by unfold retryTtlNanos at h; unfold u64Max; omega⟩

/-- On a clock past its ceiling the stamp and every reading saturate, and nothing expires. -/
theorem unreadable_never_expires : ¬ Budget (fun _ => True) .forThisHost := by
  intro h
  let first : Kind × Duration := (.firstAttempt, pastCeiling 0 (Nat.zero_le _))
  let retry : Kind × Duration := (.takeRetry, pastCeiling (retryTtlNanos + 1) (Nat.le_refl _))
  obtain ⟨middle, hmiddle⟩ :=
    serial_exists (.start .forThisHost) (List.replicate 49 first ++ first :: [])
  obtain ⟨final, hfinal⟩ := serial_exists middle (List.replicate 20 retry)
  have hle := h.expired_le _ _ _ _ middle final rfl hmiddle hfinal (by decide +kernel)
    (by decide +kernel) (by decide +kernel)
  have hspent : ((Policy.forThisHost.serveAll (List.replicate 49 first ++ first :: [])).2.serveAll
      (List.replicate 20 retry)).1 = 20 := by decide +kernel
  rw [hfinal.spec.1, hmiddle.spec.2] at hle
  change middle.granted + ((Policy.forThisHost.serveAll _).2.serveAll _).1 ≤ _ at hle
  rw [hspent] at hle
  unfold retryReserve at hle
  omega

end LogicalWorks.Retry
