import LogicalWorks.Fair.Kept

/-! What each decision does to the tenant it is about, what it costs, and that it keeps the round. -/
namespace LogicalWorks.Fair
open DeficitRoundRobin

variable {τ W P : Type} [DecidableEq τ] {live : W → Bool} {tenants : Finset τ}
  {round next : DeficitRoundRobin τ W} {tenant front : τ} {entry : Entry W} {waiter : W}

def DeficitRoundRobin.line (round : DeficitRoundRobin τ W) (live : W → Bool) (tenant : τ) : List W :=
  (round.entry tenant).queue.filter live

/-- A decision about one tenant: its queue and its admissions become these, those of the others
stay, and the round is kept at a cost. -/
structure Decided (live live' : W → Bool) (tenants : Finset τ) (round next : DeficitRoundRobin τ W)
    (tenant : τ) (queue : List W) (inFlight cost : Nat) : Prop where
  kept : Kept live' (insert tenant tenants) next
  policy : next.policy = round.policy
  queue_eq : (next.entry tenant).queue = queue
  inFlight_eq : (next.entry tenant).inFlight = inFlight
  others : ∀ other, other ≠ tenant → (next.entry other).queue = (round.entry other).queue ∧
    next.line live' other = round.line live other ∧
    (next.entry other).inFlight = (round.entry other).inFlight
  cost : next.potential (insert tenant tenants) ≤ round.potential tenants + cost

/-- A decision that exchanges one tenant's entry, `cost` paying for the work, the ring and the
waiters left in the queue. -/
theorem Kept.decided (h : Kept live tenants round) {live' : W → Bool} {cost : Nat}
    (hpolicy : next.policy = round.policy)
    (hentry : ∀ other, next.entry other = if other = tenant then entry else round.entry other)
    (hlive : ∀ other, other ≠ tenant → ∀ waiter ∈ (round.entry other).queue,
      live' waiter = live waiter)
    (hdistinct : next.ring.Nodup) (hsound : Sound round.policy live' next.ring tenant entry)
    (hservable : entry.queue ≠ [] → entry.inFlight < round.policy.perTenantLimit →
      tenant ∈ next.ring)
    (hmem : ∀ other, other ≠ tenant → (other ∈ next.ring ↔ other ∈ round.ring))
    (hhead : ∀ other, other ≠ tenant → round.ring.head? = some other →
      next.ring.head? = some other)
    (hretained : next.retained + (round.entry tenant).queue.length =
      round.retained + entry.queue.length)
    (hretained_le : next.retained ≤ round.policy.queueTotal)
    (hcost : next.work + next.ring.length + 2 * entry.abandoned ≤
      round.work + round.ring.length + 2 * (round.entry tenant).abandoned + cost) :
    Decided live live' tenants round next tenant entry.queue entry.inFlight cost where
  kept := by
    refine h.exchange hpolicy hentry hdistinct hsound hservable (fun other hne => ?_) hretained
      hretained_le
    exact ⟨(h.sound other).move (hmem other hne) (hhead other hne) (hlive other hne),
      (hmem other hne).mpr⟩
  policy := hpolicy
  queue_eq := by rw [hentry, if_pos rfl]
  inFlight_eq := by rw [hentry, if_pos rfl]
  others := by
    intro other hne
    unfold line
    rw [hentry, if_neg hne]
    exact ⟨rfl, List.filter_congr (hlive other hne), rfl⟩
  cost := by
    have hsum := total_exchange h.outside hentry Entry.abandoned rfl
    unfold potential
    omega

theorem Decided.line_eq {live' : W → Bool} {queue : List W} {inFlight cost : Nat}
    (h : Decided live live' tenants round next tenant queue inFlight cost) :
    next.line live' tenant = queue.filter live' := by rw [line, h.queue_eq]

theorem head_append_of_some {ring : List τ} {other tenant : τ} (h : ring.head? = some other) :
    (ring ++ [tenant]).head? = some other := by
  cases ring with
  | nil => cases h
  | cons first rest => exact h

theorem Sound.arm (h : Sound round.policy live round.ring tenant entry) :
    Sound round.policy live (round.arm tenant entry).1.ring tenant (round.arm tenant entry).2 := by
  unfold DeficitRoundRobin.arm
  split
  · rename_i hoff
    simp only [Bool.and_eq_true, Bool.not_eq_true', decide_eq_true_eq] at hoff
    have hnotin : tenant ∉ round.ring := by
      intro hin
      rw [h.onRing.mpr hin] at hoff
      cases hoff.1
    constructor
    case abandoned => exact h.abandoned
    case queued => exact h.queued
    case abandoned_le => exact h.abandoned_le
    case inFlight_le => exact h.inFlight_le
    case onRing => simp
    case armed => exact fun _ => hoff.2
    case closed => exact h.closed
    case opened =>
      intro hopen
      exact absurd (List.mem_of_mem_head? (h.opened hopen).1) hnotin
  · exact h

theorem arm_spec (h : Sound round.policy live round.ring tenant entry)
    (hdistinct : round.ring.Nodup) :
    (round.arm tenant entry).1.policy = round.policy ∧
    (round.arm tenant entry).1.entries = round.entries ∧
    (round.arm tenant entry).1.retained = round.retained ∧
    (round.arm tenant entry).1.work = round.work ∧
    (round.arm tenant entry).1.ring.Nodup ∧
    (round.arm tenant entry).1.ring.length ≤ round.ring.length + 1 ∧
    (∀ other, other ≠ tenant → (other ∈ (round.arm tenant entry).1.ring ↔ other ∈ round.ring)) ∧
    (∀ other, other ≠ tenant → round.ring.head? = some other →
      (round.arm tenant entry).1.ring.head? = some other) ∧
    (round.arm tenant entry).2.queue = entry.queue ∧
    (round.arm tenant entry).2.inFlight = entry.inFlight ∧
    (round.arm tenant entry).2.abandoned = entry.abandoned ∧
    (entry.inFlight < round.policy.perTenantLimit → tenant ∈ (round.arm tenant entry).1.ring) := by
  unfold DeficitRoundRobin.arm
  split
  · rename_i hoff
    simp only [Bool.and_eq_true, Bool.not_eq_true', decide_eq_true_eq] at hoff
    have hnotin : tenant ∉ round.ring := by
      intro hin
      rw [h.onRing.mpr hin] at hoff
      cases hoff.1
    refine ⟨rfl, rfl, rfl, rfl, ?_, by simp, ?_, fun other _ => head_append_of_some, rfl, rfl, rfl,
      by simp⟩
    · exact hdistinct.append (List.nodup_singleton _) (by simpa using hnotin)
    · intro other hne
      simp [hne]
  · rename_i hon
    refine ⟨rfl, rfl, rfl, rfl, hdistinct, by simp, fun _ _ => Iff.rfl, fun _ _ => id, rfl, rfl, rfl,
      fun hlt => ?_⟩
    simp only [Bool.and_eq_true, Bool.not_eq_true', decide_eq_true_eq, not_and, hlt,
      not_true_eq_false, imp_false, Bool.not_eq_false] at hon
    exact h.onRing.mp hon

namespace Kept

theorem step (h : Kept live tenants round) (steps : Nat) : Kept live tenants (round.step steps) :=
  ⟨h.sound, h.servable, h.distinct, h.outside, h.retained, h.retained_le⟩

theorem unchanged (h : Kept live tenants round) (tenant : τ) (hpolicy : next.policy = round.policy)
    (hentry : ∀ other, next.entry other = round.entry other) (hring : next.ring = round.ring)
    (hretained : next.retained = round.retained) (hwork : next.work ≤ round.work + 1) :
    Decided live live tenants round next tenant (round.entry tenant).queue
      (round.entry tenant).inFlight 1 := by
  have hsame : ∀ other, next.entry other =
      if other = tenant then round.entry tenant else round.entry other := by
    intro other
    rw [hentry]
    split
    · rename_i heq
      rw [heq]
    · rfl
  apply h.decided hpolicy hsame
  case hlive => exact fun _ _ _ _ => rfl
  case hdistinct => exact hring ▸ h.distinct
  case hsound => exact hring ▸ h.sound tenant
  case hservable => exact hring ▸ h.servable tenant
  case hmem => simp [hring]
  case hhead => simp [hring]
  case hretained => rw [hretained]
  case hretained_le => exact hretained ▸ h.retained_le
  case hcost =>
    rw [hring]
    omega

theorem queue_le (h : Kept live tenants round) (tenant : τ) :
    (round.entry tenant).queue.length ≤ round.retained := by
  rw [h.retained]
  by_cases hmem : tenant ∈ tenants
  · exact Finset.single_le_sum (f := fun other => (round.entry other).queue.length)
      (fun _ _ => Nat.zero_le _) hmem
  · rw [h.outside tenant hmem]
    exact Nat.zero_le _

theorem immediate (h : Kept live tenants round) (hring : round.ring = [])
    (hlt : (round.entry tenant).inFlight < round.policy.perTenantLimit) :
    Decided live live tenants round ((round.step 1).place tenant (round.entry tenant).charge) tenant
      (round.entry tenant).queue ((round.entry tenant).inFlight + 1) 1 := by
  have hsound := h.sound tenant
  have hoff : (round.entry tenant).onRing = false := by
    rw [← Bool.not_eq_true, hsound.onRing, hring]
    exact List.not_mem_nil
  have hcharged : Sound round.policy live round.ring tenant (round.entry tenant).charge := by
    constructor
    case abandoned => exact hsound.abandoned
    case queued => exact hsound.queued
    case abandoned_le => exact hsound.abandoned_le
    case inFlight_le => exact hlt
    case onRing => exact hsound.onRing
    case armed => simp [Entry.charge, hoff]
    case closed => exact hsound.closed
    case opened => exact hsound.opened
  refine h.decided ?_ (fun other => entry_place (round.step 1) tenant other _) (fun _ _ _ _ => rfl)
    h.distinct hcharged (fun hqueue _ => h.servable tenant hqueue hlt) (fun _ _ => Iff.rfl)
    (fun _ _ => id) rfl h.retained_le ?_
  · rfl
  change min (round.work + 1) u64Max + round.ring.length + 2 * (round.entry tenant).abandoned ≤ _
  omega

theorem arms (h : Kept live tenants round) (started : DeficitRoundRobin τ W) {cost : Nat}
    (hpolicy : started.policy = round.policy) (hentries : started.entries = round.entries)
    (hring : started.ring = round.ring)
    (hsound : Sound round.policy live round.ring tenant entry)
    (hretained : started.retained + (round.entry tenant).queue.length =
      round.retained + entry.queue.length)
    (hretained_le : started.retained ≤ round.policy.queueTotal)
    (hcost : started.work + 1 + 2 * entry.abandoned ≤
      round.work + 2 * (round.entry tenant).abandoned + cost)
    (hnext : next.policy = (started.arm tenant entry).1.policy ∧
      next.ring = (started.arm tenant entry).1.ring ∧
      next.retained = (started.arm tenant entry).1.retained ∧
      next.work = (started.arm tenant entry).1.work ∧
      ∀ other, next.entry other = if other = tenant then (started.arm tenant entry).2
        else (started.arm tenant entry).1.entry other) :
    Decided live live tenants round next tenant entry.queue entry.inFlight cost := by
  have harmed : Sound started.policy live started.ring tenant entry := by
    rw [hpolicy, hring]
    exact hsound
  obtain ⟨harmedPolicy, harmedEntries, harmedRetained, harmedWork, hdistinct, hlength, hmem, hhead,
    hwaiting, hflight, habandoned, hon⟩ := arm_spec harmed (hring ▸ h.distinct)
  obtain ⟨hnextPolicy, hnextRing, hnextRetained, hnextWork, hnextEntry⟩ := hnext
  rw [hring] at hlength hmem hhead
  have hfinal : Sound round.policy live next.ring tenant (started.arm tenant entry).2 := by
    rw [hnextRing, ← hpolicy]
    exact harmed.arm
  have hdecided : Decided live live tenants round next tenant (started.arm tenant entry).2.queue
      (started.arm tenant entry).2.inFlight cost := by
    refine h.decided ?_ (fun other => ?_) (fun _ _ _ _ => rfl) ?_ hfinal ?_ ?_ ?_ ?_ ?_ ?_
    · rw [hnextPolicy, harmedPolicy, hpolicy]
    · rw [hnextEntry]
      unfold DeficitRoundRobin.entry
      rw [harmedEntries, hentries]
    · rw [hnextRing]
      exact hdistinct
    · intro _ hlt
      rw [hflight] at hlt
      rw [hnextRing]
      exact hon (hpolicy ▸ hlt)
    · rw [hnextRing]
      exact hmem
    · rw [hnextRing]
      exact hhead
    · rw [hnextRetained, harmedRetained, hwaiting]
      exact hretained
    · rw [hnextRetained, harmedRetained]
      exact hretained_le
    · rw [hnextWork, harmedWork, hnextRing, habandoned]
      omega
  rw [hwaiting, hflight] at hdecided
  exact hdecided

theorem join (h : Kept live tenants round) (hlive : live waiter = true)
    (hqueue : (round.entry tenant).live < round.policy.queuePerTenant)
    (htotal : round.retained < round.policy.queueTotal) :
    Decided live live tenants round ((round.step 1).join tenant waiter) tenant
      ((round.entry tenant).queue ++ [waiter]) (round.entry tenant).inFlight 2 := by
  have hsound := h.sound tenant
  have hlength := hsound.live_eq
  have hjoined : Sound round.policy live round.ring tenant ((round.entry tenant).push waiter) := by
    constructor
    case abandoned => simpa [Entry.push, hlive] using hsound.abandoned
    case queued =>
      have hle : ([waiter].filter live).length ≤ 1 := List.length_filter_le _ _
      simp only [Entry.push, List.filter_append, List.length_append]
      omega
    case abandoned_le => exact hsound.abandoned_le
    case inFlight_le => exact hsound.inFlight_le
    case onRing => exact hsound.onRing
    case armed => exact hsound.armed
    case closed => exact hsound.closed
    case opened => exact hsound.opened
  change Decided live live tenants round _ tenant ((round.entry tenant).push waiter).queue
    ((round.entry tenant).push waiter).inFlight 2
  apply h.arms { round.step 1 with retained := round.retained + 1 } rfl rfl rfl hjoined
  case hretained => simp [Entry.push]; omega
  case hretained_le => exact htotal
  case hcost =>
    change min (round.work + 1) u64Max + 1 + 2 * (round.entry tenant).abandoned ≤ _
    omega
  case hnext => exact ⟨rfl, rfl, rfl, rfl, fun other => entry_place _ tenant other _⟩

theorem release (h : Kept live tenants round) (tenant : τ) :
    Decided live live tenants round (round.noteRelease tenant) tenant (round.entry tenant).queue
      ((round.entry tenant).inFlight - 1) 2 := by
  have hsound := h.sound tenant
  have hreleased : Sound round.policy live round.ring tenant (round.entry tenant).release := by
    constructor
    case abandoned => exact hsound.abandoned
    case queued => exact hsound.queued
    case abandoned_le => exact hsound.abandoned_le
    case inFlight_le => exact Nat.le_trans (Nat.sub_le _ _) hsound.inFlight_le
    case onRing => exact hsound.onRing
    case armed => exact fun hon => Nat.lt_of_le_of_lt (Nat.sub_le _ _) (hsound.armed hon)
    case closed => exact hsound.closed
    case opened => exact hsound.opened
  have hwork : (round.step 1).work ≤ round.work + 1 := Nat.min_le_left _ _
  change Decided live live tenants round _ tenant (round.entry tenant).release.queue
    (round.entry tenant).release.inFlight 2
  unfold noteRelease
  simp only
  cases hget : (round.step 1).entries.get tenant with
  | none =>
    have hdefault : round.entry tenant = .default := by
      change ((round.step 1).entries.get tenant).getD .default = _
      rw [hget]
      rfl
    have hflight : (round.entry tenant).release.inFlight = (round.entry tenant).inFlight := by
      rw [hdefault]
      rfl
    have hdecided : Decided live live tenants round (round.step 1) tenant
        (round.entry tenant).queue (round.entry tenant).inFlight 1 := h.unchanged tenant rfl (fun _ => rfl) rfl rfl hwork
    rw [hflight]
    exact { hdecided with cost := Nat.le_trans hdecided.cost (by omega) }
  | some entry =>
    have hentry : entry = round.entry tenant := by
      change _ = ((round.step 1).entries.get tenant).getD .default
      rw [hget]
      rfl
    subst hentry
    simp only
    split
    · rename_i hempty
      have hnil : (round.entry tenant).queue = [] := List.isEmpty_iff.mp hempty
      refine h.decided ?_ (fun other => entry_tidy _ tenant other hreleased.eq_default)
        (fun _ _ _ _ => rfl) ?_ ?_ ?_ ?_ ?_ ?_ ?_ ?_
      · simp [DeficitRoundRobin.step]
      · simpa [DeficitRoundRobin.step] using h.distinct
      · simpa [DeficitRoundRobin.step] using hreleased
      · exact fun hqueue => absurd hnil hqueue
      · simp [DeficitRoundRobin.step]
      · simp [DeficitRoundRobin.step]
      · simp [DeficitRoundRobin.step, Entry.release]
      · simpa [DeficitRoundRobin.step] using h.retained_le
      · simp only [tidy_work, tidy_ring, Entry.release]
        change _ + round.ring.length + _ ≤ _
        omega
    · have hstepped : Sound (round.step 1).policy live (round.step 1).ring tenant
          (round.entry tenant).release := hreleased
      have harmed := hstepped.arm
      refine h.arms (round.step 1) rfl rfl rfl hreleased rfl h.retained_le ?_ ⟨by simp, by simp,
        by simp, by simp, fun other => entry_tidy _ tenant other harmed.eq_default⟩
      simp only [Entry.release]
      omega

theorem abandoned [DecidableEq W] (h : Kept live tenants round) {live' : W → Bool}
    (hnodup : (round.entry tenant).queue.Nodup) (hmem : waiter ∈ (round.entry tenant).queue)
    (hlive : live waiter = true) (hleft : live' waiter = false)
    (hsame : ∀ other, other ≠ waiter → live' other = live other)
    (hothers : ∀ other, other ≠ tenant → waiter ∉ (round.entry other).queue) :
    ∃ queue, queue.Sublist (round.entry tenant).queue ∧
      queue.filter live' = (round.entry tenant).queue.filter live' ∧
      Decided live live' tenants round (round.noteAbandoned tenant live') tenant queue
        (round.entry tenant).inFlight 3 := by
  have hsound := h.sound tenant
  have hlength := hsound.length_queue
  have hlive_eq := hsound.live_eq
  have hqueue_le := h.queue_le tenant
  have hretained_le := h.retained_le
  -- The waiter occurs once, so one more of the queue is left and one less is live.
  have hsplit := List.perm_cons_erase hmem
  have hrest : ∀ other ∈ (round.entry tenant).queue.erase waiter, live' other = live other := by
    intro other hother
    exact hsame other fun heq => hnodup.not_mem_erase (heq ▸ hother)
  have hlive' : ((round.entry tenant).queue.filter live').length + 1 =
      ((round.entry tenant).queue.filter live).length := by
    rw [(hsplit.filter live').length_eq, (hsplit.filter live).length_eq, List.filter_cons,
      List.filter_cons, hlive, hleft, List.filter_congr hrest]
    simp
  have hwhole := List.length_eq_length_filter_add (l := (round.entry tenant).queue) live'
  have hdead : ((round.entry tenant).queue.filter fun waiter => !live' waiter).length =
      (round.entry tenant).abandoned + 1 := by omega
  have hqueued := hsound.queued
  have hothersLive : ∀ other, other ≠ tenant → ∀ waiter ∈ (round.entry other).queue,
      live' waiter = live waiter := by
    intro other hne found hfound
    exact hsame found fun heq => hothers other hne (heq ▸ hfound)
  have hget : (round.step 1).entries.get tenant = some (round.entry tenant) := by
    change round.entries.get tenant = some ((round.entries.get tenant).getD .default)
    cases hfound : round.entries.get tenant with
    | some entry => rfl
    | none =>
      unfold DeficitRoundRobin.entry at hmem
      rw [hfound] at hmem
      cases hmem
  have hleave : (round.entry tenant).leave.abandoned = (round.entry tenant).abandoned + 1 := by
    simp only [Entry.leave]
    omega
  have hleaveLive : (round.entry tenant).leave.live =
      ((round.entry tenant).queue.filter live').length := by
    simp only [Entry.live, hleave]
    simp only [Entry.leave]
    omega
  have hstepped : (round.step 1).work ≤ round.work + 1 := Nat.min_le_left _ _
  unfold noteAbandoned
  simp only [hget, hleave, hleaveLive]
  split
  · rename_i houtnumbered
    have hrebuilt : ((round.entry tenant).leave.rebuild live').queue.filter live' =
        (round.entry tenant).queue.filter live' := by
      simp [Entry.rebuild, Entry.leave]
    have hfreed : ((round.entry tenant).leave.rebuild live').queue.length =
        ((round.entry tenant).queue.filter live').length := rfl
    refine ⟨((round.entry tenant).leave.rebuild live').queue, List.filter_sublist, hrebuilt, ?_⟩
    change Decided live live' tenants round _ tenant _
      ((round.entry tenant).leave.rebuild live').inFlight 3
    refine h.decided ?_ (fun other => entry_place _ tenant other _) hothersLive ?_ ?_ ?_
      (fun _ _ => Iff.rfl) (fun _ _ => id) ?_ ?_ ?_
    · rfl
    · exact h.distinct
    · constructor
      case abandoned => simp [Entry.rebuild, List.filter_filter]
      case queued =>
        rw [hrebuilt]
        omega
      case abandoned_le => exact Nat.zero_le _
      case inFlight_le => exact hsound.inFlight_le
      case onRing => exact hsound.onRing
      case armed => exact hsound.armed
      case closed => exact hsound.closed
      case opened => exact hsound.opened
    · intro _ hlt
      exact h.servable tenant (List.ne_nil_of_mem hmem) hlt
    · change round.retained - _ + _ = round.retained + _
      omega
    · change round.retained - _ ≤ _
      omega
    · change min ((round.step 1).work + _) u64Max + round.ring.length + 2 * 0 ≤ _
      omega
  · rename_i hfew
    refine ⟨(round.entry tenant).leave.queue, List.Sublist.refl _, rfl, ?_⟩
    change Decided live live' tenants round _ tenant _ (round.entry tenant).leave.inFlight 3
    refine h.decided ?_ (fun other => entry_place (round.step 1) tenant other _) hothersLive
      h.distinct ?_ ?_ (fun _ _ => Iff.rfl) (fun _ _ => id) rfl h.retained_le ?_
    · rfl
    · constructor
      case abandoned => exact hleave.trans hdead.symm
      case queued =>
        change ((round.entry tenant).queue.filter live').length ≤ _
        omega
      case abandoned_le => omega
      case inFlight_le => exact hsound.inFlight_le
      case onRing => exact hsound.onRing
      case armed => exact hsound.armed
      case closed => exact hsound.closed
      case opened => exact hsound.opened
    · intro _ hlt
      exact h.servable tenant (List.ne_nil_of_mem hmem) hlt
    · change (round.step 1).work + round.ring.length + _ ≤ _
      omega

end Kept

theorem filter_dropWhile (live : W → Bool) (queue : List W) :
    (queue.dropWhile fun waiter => !live waiter).filter live = queue.filter live ∧
      (queue.filter fun waiter => !live waiter).length =
        (queue.takeWhile fun waiter => !live waiter).length +
          ((queue.dropWhile fun waiter => !live waiter).filter fun waiter => !live waiter).length ∧
      queue.length = (queue.takeWhile fun waiter => !live waiter).length +
        (queue.dropWhile fun waiter => !live waiter).length := by
  induction queue with
  | nil => simp
  | cons first rest ih =>
    cases hfirst : live first with
    | true => simp [hfirst]
    | false =>
      obtain ⟨hfilter, hdead, hlength⟩ := ih
      simp only [hfirst, List.dropWhile_cons, List.takeWhile_cons, List.filter_cons,
        Bool.not_false, if_true, Bool.false_eq_true, if_false, List.length_cons]
      exact ⟨hfilter, by omega, by omega⟩

theorem Sound.skip (h : Sound round.policy live round.ring tenant entry) :
    Sound round.policy live round.ring tenant (round.skip entry live).2 ∧
      (round.skip entry live).2.queue.filter live = entry.queue.filter live ∧
      ∃ skipped, (round.skip entry live).1 =
          { round.step skipped with retained := round.retained - skipped } ∧
        (round.skip entry live).2.abandoned + skipped = entry.abandoned ∧
        (round.skip entry live).2.queue.length + skipped = entry.queue.length := by
  obtain ⟨hfilter, hdead, hlength⟩ := filter_dropWhile live entry.queue
  have habandoned := h.abandoned
  refine ⟨?_, hfilter, (entry.queue.takeWhile fun waiter => !live waiter).length, rfl, ?_, ?_⟩
  · constructor
    case abandoned =>
      simp only [DeficitRoundRobin.skip]
      omega
    case queued =>
      simp only [DeficitRoundRobin.skip, hfilter]
      exact h.queued
    case abandoned_le => exact Nat.le_trans (Nat.sub_le _ _) h.abandoned_le
    case inFlight_le => exact h.inFlight_le
    case onRing => exact h.onRing
    case armed => exact h.armed
    case closed => exact h.closed
    case opened => exact h.opened
  · simp only [DeficitRoundRobin.skip]
    omega
  · simp only [DeficitRoundRobin.skip]
    omega

theorem Sound.serve (h : Sound round.policy live round.ring tenant entry) {behind : List W}
    (hqueue : entry.queue = waiter :: behind) (hlive : live waiter = true)
    (hlt : entry.inFlight < round.policy.perTenantLimit) :
    entry.abandoned = (behind.filter fun waiter => !live waiter).length ∧
      (behind.filter live).length ≤ round.policy.queuePerTenant ∧
      entry.abandoned ≤ round.policy.queuePerTenant ∧
      entry.inFlight + 1 ≤ round.policy.perTenantLimit := by
  have hcount := h.abandoned
  have hqueued := h.queued
  rw [hqueue, List.filter_cons, if_pos hlive, List.length_cons] at hqueued
  rw [hqueue, List.filter_cons, hlive] at hcount
  exact ⟨hcount, by omega, h.abandoned_le, hlt⟩

def Entry.left (entry : Entry W) (weight : Nat) : Nat :=
  if entry.turnOpen then entry.deficit else weight

theorem openTurn_spec (h : Sound round.policy live round.ring tenant entry) :
    round.openTurn tenant entry = { entry with
      deficit := entry.left (round.policy.weightOf tenant), turnOpen := true } ∧
      0 < entry.left (round.policy.weightOf tenant) ∧
      entry.left (round.policy.weightOf tenant) ≤ round.policy.weightOf tenant := by
  have hpos := round.policy.weightOf_pos tenant
  have hle := round.policy.weightOf_le tenant
  unfold DeficitRoundRobin.openTurn Entry.left
  cases hopen : entry.turnOpen with
  | true =>
    obtain ⟨-, hdeficit⟩ := h.opened hopen
    simp only [if_true]
    refine ⟨?_, hdeficit⟩
    rw [← hopen]
  | false =>
    simp only [h.closed hopen, Bool.false_eq_true, if_false, Nat.zero_add]
    refine ⟨?_, hpos, Nat.le_refl _⟩
    rw [Nat.min_eq_left (by simp only [u32Max, maxTenantWeight] at *; omega)]

/-- The three ways a turn goes on: its tenant leaves the ring, goes to its end, or stays at its
head. -/
theorem hand_cases (h : Sound round.policy live round.ring front entry) (rest : List τ)
    (behind : List W) :
    ((behind = [] ∨ round.policy.perTenantLimit ≤ entry.inFlight + 1) ∧
      round.hand front rest entry behind =
        ({ round with ring := rest, retained := round.retained - 1 }).tidy front
          { entry with
            queue := behind, inFlight := entry.inFlight + 1
            turnOpen := false, onRing := false, deficit := 0 }) ∨
    ((behind ≠ [] ∧ entry.inFlight + 1 < round.policy.perTenantLimit) ∧
      entry.left (round.policy.weightOf front) = 1 ∧
      round.hand front rest entry behind =
        ({ round with ring := rest ++ [front], retained := round.retained - 1 }).place front
          { entry with
            queue := behind, inFlight := entry.inFlight + 1
            turnOpen := false, deficit := 0 }) ∨
    ((behind ≠ [] ∧ entry.inFlight + 1 < round.policy.perTenantLimit) ∧
      1 < entry.left (round.policy.weightOf front) ∧
      round.hand front rest entry behind =
        ({ round with retained := round.retained - 1 }).place front
          { entry with
            queue := behind, inFlight := entry.inFlight + 1
            turnOpen := true, deficit := entry.left (round.policy.weightOf front) - 1 }) := by
  obtain ⟨hopened, hpos, -⟩ := openTurn_spec h
  unfold DeficitRoundRobin.hand
  simp only [hopened]
  by_cases hleaves : behind = [] ∨ round.policy.perTenantLimit ≤ entry.inFlight + 1
  · rw [if_pos hleaves]
    exact .inl ⟨hleaves, rfl⟩
  · have hstays : behind ≠ [] ∧ entry.inFlight + 1 < round.policy.perTenantLimit := by
      rw [not_or, Nat.not_le] at hleaves
      exact hleaves
    rw [if_neg hleaves]
    by_cases hspent : entry.left (round.policy.weightOf front) - 1 = 0
    · rw [if_pos hspent]
      refine .inr (.inl ⟨hstays, by omega, ?_⟩)
      rw [hspent]
    · rw [if_neg hspent]
      exact .inr (.inr ⟨hstays, by omega, rfl⟩)

namespace Kept

variable {rest : List τ}

theorem front_spec (h : Kept live tenants round) (hring : round.ring = front :: rest) :
    round.entries.get front = some (round.entry front) ∧ (round.entry front).onRing = true ∧
      front ∉ rest ∧ rest.Nodup := by
  have hon : (round.entry front).onRing = true := by
    rw [(h.sound front).onRing, hring]
    exact List.mem_cons_self
  have hdistinct := h.distinct
  rw [hring, List.nodup_cons] at hdistinct
  refine ⟨?_, hon, hdistinct⟩
  cases hget : round.entries.get front with
  | some entry => simp [DeficitRoundRobin.entry, hget]
  | none =>
    simp only [DeficitRoundRobin.entry, hget] at hon
    cases hon

def passed (live : W → Bool) (round : DeficitRoundRobin τ W) (front : τ) : Entry W :=
  ((round.step 1).skip (round.entry front) live).2

theorem passed_sound (h : Kept live tenants round) (front : τ) :
    Sound (round.step 1).policy live (round.step 1).ring front (passed live round front) :=
  have hstepped : Sound (round.step 1).policy live (round.step 1).ring front (round.entry front) :=
    h.sound front
  hstepped.skip.1

/-- A turn of the tenant at the head of the ring: the waiters left there are passed, and `handed` of
the others leave the queue. -/
theorem turned (h : Kept live tenants round) (hring : round.ring = front :: rest)
    {handed cost : Nat} (hpolicy : next.policy = round.policy)
    (hentry : ∀ other, next.entry other = if other = front then entry else round.entry other)
    (hsound : Sound round.policy live next.ring front entry) (hdistinct : next.ring.Nodup)
    (hservable : entry.queue ≠ [] → entry.inFlight < round.policy.perTenantLimit →
      front ∈ next.ring)
    (hmem : ∀ other, other ≠ front → (other ∈ next.ring ↔ other ∈ rest))
    (hqueue : entry.queue.length + handed = (passed live round front).queue.length)
    (habandoned : entry.abandoned = (passed live round front).abandoned)
    (hretained : next.retained =
      ((round.step 1).skip (round.entry front) live).1.retained - handed)
    (hwork : next.work = ((round.step 1).skip (round.entry front) live).1.work)
    (hlength : next.ring.length ≤ rest.length + cost) :
    Decided live live tenants round next front entry.queue entry.inFlight cost := by
  have hstepped : Sound (round.step 1).policy live (round.step 1).ring front (round.entry front) :=
    h.sound front
  obtain ⟨-, -, skipped, hround, hleft, hpassed⟩ := hstepped.skip
  change (passed live round front).abandoned + skipped = _ at hleft
  change (passed live round front).queue.length + skipped = _ at hpassed
  have hretained_le := h.retained_le
  have hqueue_le := h.queue_le front
  have hstep : (round.step 1).work ≤ round.work + 1 := Nat.min_le_left _ _
  have hskip : next.work ≤ (round.step 1).work + skipped := by
    rw [hwork, hround]
    exact Nat.min_le_left _ _
  have hkeep : next.retained = round.retained - skipped - handed := by
    rw [hretained, hround]
    rfl
  apply h.decided hpolicy hentry (fun _ _ _ _ => rfl) hdistinct hsound hservable
  case hmem =>
    intro other hne
    rw [hmem other hne, hring]
    simp [hne]
  case hhead =>
    intro other hne hfirst
    rw [hring] at hfirst
    exact absurd (Option.some.inj hfirst).symm hne
  case hretained => omega
  case hretained_le => omega
  case hcost =>
    rw [hring, List.length_cons]
    omega

theorem retire (h : Kept live tenants round) (hring : round.ring = front :: rest)
    (hqueue : (passed live round front).queue = []) :
    Decided live live tenants round (((round.step 1).skip (round.entry front) live).1.retire front
      rest (passed live round front)) front [] (round.entry front).inFlight 0 ∧
      round.line live front = [] := by
  have hstepped : Sound (round.step 1).policy live (round.step 1).ring front (round.entry front) :=
    h.sound front
  obtain ⟨hsound, hfilter, -⟩ := hstepped.skip
  obtain ⟨-, -, hnotin, hdistinct⟩ := h.front_spec hring
  let gone : Entry W :=
    { passed live round front with onRing := false, deficit := 0, turnOpen := false }
  have hgone : Sound round.policy live rest front gone := by
    constructor
    case abandoned => exact hsound.abandoned
    case queued => exact hsound.queued
    case abandoned_le => exact hsound.abandoned_le
    case inFlight_le => exact hsound.inFlight_le
    case onRing => exact ⟨nofun, fun hin => absurd hin hnotin⟩
    case armed => exact nofun
    case closed => exact fun _ => rfl
    case opened => exact nofun
  have hline : round.line live front = [] := by
    rw [line, ← hfilter]
    change (passed live round front).queue.filter live = []
    rw [hqueue]
    rfl
  refine ⟨?_, hline⟩
  rw [← hqueue]
  change Decided live live tenants round _ front gone.queue gone.inFlight 0
  unfold DeficitRoundRobin.retire
  apply h.turned hring
  case hpolicy => exact tidy_policy
  case hentry => exact fun other => entry_tidy _ front other hgone.eq_default
  case hsound => simpa using hgone
  case hdistinct => simpa using hdistinct
  case hservable => exact fun hne => absurd hqueue hne
  case hmem => simp
  case hqueue => exact Nat.add_zero _
  case habandoned => rfl
  case hretained => exact tidy_retained
  case hwork => exact tidy_work
  case hlength => simp

theorem hand (h : Kept live tenants round) (hring : round.ring = front :: rest) {behind : List W}
    (hqueue : (passed live round front).queue = waiter :: behind) :
    Decided live live tenants round (((round.step 1).skip (round.entry front) live).1.hand front rest
      (passed live round front) behind) front behind
      ((round.entry front).inFlight + 1) 1 ∧
      round.line live front = waiter :: behind.filter live ∧ live waiter = true ∧
      (round.entry front).inFlight < round.policy.perTenantLimit := by
  have hstepped : Sound (round.step 1).policy live (round.step 1).ring front (round.entry front) :=
    h.sound front
  obtain ⟨hsound, hfilter, -⟩ := hstepped.skip
  obtain ⟨-, hon, hnotin, hdistinct⟩ := h.front_spec hring
  have hlive : live waiter = true := by
    have hfirst := List.head?_dropWhile_not (fun waiter => !live waiter) (round.entry front).queue
    have hdropped : ((round.entry front).queue.dropWhile fun waiter => !live waiter) =
        waiter :: behind := hqueue
    rw [hdropped] at hfirst
    simpa using hfirst
  have hlt := (h.sound front).armed hon
  have hline : round.line live front = waiter :: behind.filter live := by
    rw [line, ← hfilter]
    change (passed live round front).queue.filter live = _
    rw [hqueue, List.filter_cons, if_pos hlive]
  refine ⟨?_, hline, hlive, hlt⟩
  have hstart : Sound ((round.step 1).skip (round.entry front) live).1.policy live
      ((round.step 1).skip (round.entry front) live).1.ring front (passed live round front) :=
    h.passed_sound front
  obtain ⟨hcount, hqueued, hbound, hinFlight⟩ := hstart.serve hqueue hlive hlt
  have hlength : behind.length + 1 = (passed live round front).queue.length := by
    rw [hqueue, List.length_cons]
  rcases hand_cases hstart rest behind with ⟨hleaves, hhand⟩ | ⟨hstays, hone, hhand⟩ |
    ⟨hstays, hmore, hhand⟩
  · rw [hhand]
    let served : Entry W := { passed live round front with
      queue := behind, inFlight := (round.entry front).inFlight + 1
      turnOpen := false, onRing := false, deficit := 0 }
    have hserved : Sound round.policy live rest front served :=
      ⟨hcount, hqueued, hbound, hinFlight, ⟨nofun, fun hin => absurd hin hnotin⟩, nofun,
        fun _ => rfl, nofun⟩
    change Decided live live tenants round _ front served.queue served.inFlight 1
    apply h.turned hring
    case hpolicy => exact tidy_policy
    case hentry => exact fun other => entry_tidy _ front other hserved.eq_default
    case hsound => simpa using hserved
    case hdistinct => simpa using hdistinct
    case hservable =>
      intro hne hunder
      rcases hleaves with hnil | hceiling
      · exact absurd hnil hne
      · exact absurd hunder (Nat.not_lt.mpr hceiling)
    case hmem => simp
    case hqueue => exact hlength
    case habandoned => rfl
    case hretained => exact tidy_retained
    case hwork => exact tidy_work
    case hlength => simp
  · rw [hhand]
    let served : Entry W := { passed live round front with
      queue := behind, inFlight := (round.entry front).inFlight + 1
      turnOpen := false, deficit := 0 }
    have hserved : Sound round.policy live (rest ++ [front]) front served :=
      ⟨hcount, hqueued, hbound, hinFlight, ⟨fun _ => by simp, fun _ => hon⟩,
        fun _ => hstays.2, fun _ => rfl, nofun⟩
    change Decided live live tenants round _ front served.queue served.inFlight 1
    apply h.turned hring
    case hpolicy => rfl
    case hentry => exact fun other => entry_place _ front other _
    case hsound => exact hserved
    case hdistinct =>
      exact hdistinct.append (List.nodup_singleton _) (by simpa using hnotin)
    case hservable => exact fun _ _ => List.mem_append_right _ List.mem_cons_self
    case hmem =>
      intro other hne
      change other ∈ rest ++ [front] ↔ _
      simp [hne]
    case hqueue => exact hlength
    case habandoned => rfl
    case hretained => rfl
    case hwork => rfl
    case hlength => exact Nat.le_of_eq List.length_append
  · rw [hhand]
    let served : Entry W := { passed live round front with
      queue := behind, inFlight := (round.entry front).inFlight + 1, turnOpen := true
      deficit := (passed live round front).left (round.policy.weightOf front) - 1 }
    have hleft_le : (passed live round front).left (round.policy.weightOf front) ≤
        round.policy.weightOf front := (openTurn_spec hstart).2.2
    have hleft : 1 < (passed live round front).left (round.policy.weightOf front) := hmore
    have hserved : Sound round.policy live round.ring front served := by
      refine ⟨hcount, hqueued, hbound, hinFlight, (h.sound front).onRing, fun _ => hstays.2,
        nofun, fun _ => ⟨by rw [hring]; rfl, ?_⟩⟩
      change 0 < _ - 1 ∧ _ - 1 ≤ _
      omega
    change Decided live live tenants round _ front served.queue served.inFlight 1
    apply h.turned hring
    case hpolicy => rfl
    case hentry => exact fun other => entry_place _ front other _
    case hsound => exact hserved
    case hdistinct => exact h.distinct
    case hservable =>
      intro _ _
      change front ∈ round.ring
      rw [hring]
      exact List.mem_cons_self
    case hmem =>
      intro other hne
      change other ∈ round.ring ↔ _
      rw [hring]
      simp [hne]
    case hqueue => exact hlength
    case habandoned => rfl
    case hretained => rfl
    case hwork => rfl
    case hlength =>
      change round.ring.length ≤ _
      rw [hring, List.length_cons]

end Kept

def GrantOutcome.recipient : GrantOutcome τ W P → Option (τ × W)
  | .granted tenant waiter _ => some (tenant, waiter)
  | .idle _ => none

/-- What an offered permit does: it comes back from an empty ring and every line stays, or the head
of one tenant's line takes it. -/
structure Granted (live : W → Bool) (tenants after : Finset τ) (round next : DeficitRoundRobin τ W)
    (recipient : Option (τ × W)) : Prop where
  kept : Kept live after next
  policy : next.policy = round.policy
  cost : next.potential after ≤ round.potential tenants + 1
  queues : ∀ other, (next.entry other).queue.Sublist (round.entry other).queue
  idle : recipient = none → next.ring = [] ∧ ∀ other, next.line live other = round.line live other ∧
    (next.entry other).inFlight = (round.entry other).inFlight
  granted : ∀ tenant waiter, recipient = some (tenant, waiter) →
    round.line live tenant = waiter :: next.line live tenant ∧
      (next.entry tenant).inFlight = (round.entry tenant).inFlight + 1 ∧
      (round.entry tenant).inFlight < round.policy.perTenantLimit ∧
      ∀ other, other ≠ tenant → next.line live other = round.line live other ∧
        (next.entry other).inFlight = (round.entry other).inFlight

/-- One pass of the round over a tenant that has nobody waiting changes nothing that is granted. -/
theorem Granted.behind {middle : DeficitRoundRobin τ W} {between after : Finset τ}
    {recipient : Option (τ × W)} (hpolicy : middle.policy = round.policy)
    (hcost : middle.potential between ≤ round.potential tenants)
    (hqueues : ∀ other, (middle.entry other).queue.Sublist (round.entry other).queue)
    (hsame : ∀ other, middle.line live other = round.line live other ∧
      (middle.entry other).inFlight = (round.entry other).inFlight)
    (h : Granted live between after middle next recipient) :
    Granted live tenants after round next recipient where
  kept := h.kept
  policy := h.policy.trans hpolicy
  cost := Nat.le_trans h.cost (by omega)
  queues := fun other => (h.queues other).trans (hqueues other)
  idle := by
    intro hnone
    obtain ⟨hring, hothers⟩ := h.idle hnone
    refine ⟨hring, fun other => ?_⟩
    rw [(hothers other).1, (hothers other).2]
    exact hsame other
  granted := by
    intro tenant waiter hsome
    obtain ⟨hline, hflight, hlt, hothers⟩ := h.granted tenant waiter hsome
    rw [(hsame tenant).1] at hline
    rw [(hsame tenant).2] at hflight hlt
    rw [hpolicy] at hlt
    refine ⟨hline, hflight, hlt, fun other hne => ?_⟩
    rw [(hothers other hne).1, (hothers other hne).2]
    exact hsame other

theorem Kept.grantFrom (permit : P) {ring : List τ} (h : Kept live tenants round)
    (hring : round.ring = ring) :
    ∃ after, tenants ⊆ after ∧ Granted live tenants after round
      (DeficitRoundRobin.grantFrom permit live ring round).2
      (DeficitRoundRobin.grantFrom permit live ring round).1.recipient := by
  have hwork : (round.step 1).work ≤ round.work + 1 := Nat.min_le_left _ _
  induction ring generalizing round tenants with
  | nil =>
    refine ⟨tenants, Finset.Subset.refl _, h.step 1, rfl, ?_, fun _ => List.Sublist.refl _,
      fun _ => ⟨hring, fun _ => ⟨rfl, rfl⟩⟩, nofun⟩
    change (round.step 1).work + round.ring.length + 2 * round.total tenants Entry.abandoned ≤ _
    unfold potential
    omega
  | cons front rest ih =>
    obtain ⟨hget, -, -, -⟩ := h.front_spec hring
    have hstepped : (round.step 1).entries.get front = some (round.entry front) := hget
    unfold DeficitRoundRobin.grantFrom
    simp only [hstepped]
    cases hqueue : ((round.step 1).skip (round.entry front) live).2.queue with
    | nil =>
      obtain ⟨hdecided, hline⟩ := h.retire hring hqueue
      have hnext := hdecided.kept
      have hleft : (((round.step 1).skip (round.entry front) live).1.retire front rest
          (Kept.passed live round front)).ring = rest := by
        unfold DeficitRoundRobin.retire
        rw [tidy_ring]
      obtain ⟨after, hsub, hgranted⟩ := ih hnext hleft (Nat.min_le_left _ _)
      refine ⟨after, (Finset.subset_insert _ _).trans hsub,
        hgranted.behind hdecided.policy hdecided.cost (fun other => ?_) fun other => ?_⟩
      · by_cases hother : other = front
        · rw [hother, hdecided.queue_eq]
          exact List.nil_sublist _
        · rw [(hdecided.others other hother).1]
      · by_cases hother : other = front
        · rw [hother, hline]
          exact ⟨hdecided.line_eq, hdecided.inFlight_eq⟩
        · exact (hdecided.others other hother).2
    | cons waiter behind =>
      obtain ⟨hdecided, hline, -, hlt⟩ := h.hand hring hqueue
      dsimp only
      refine ⟨insert front tenants, Finset.subset_insert _ _, hdecided.kept, hdecided.policy,
        hdecided.cost, fun other => ?_, nofun, ?_⟩
      · by_cases hother : other = front
        · rw [hother]
          have hdropped : (waiter :: behind).Sublist (round.entry front).queue := by
            rw [← hqueue]
            exact List.dropWhile_sublist _
          have hbehind : ∀ queue, queue = behind → queue.Sublist (round.entry front).queue := by
            rintro _ rfl
            exact (List.sublist_cons_self _ _).trans hdropped
          exact hbehind _ hdecided.queue_eq
        · exact (hdecided.others other hother).1 ▸ List.Sublist.refl _
      · intro tenant found hsome
        cases hsome
        refine ⟨?_, hdecided.inFlight_eq, hlt, fun other hne => (hdecided.others other hne).2⟩
        rw [hline, ← hdecided.line_eq]
        rfl

end LogicalWorks.Fair
