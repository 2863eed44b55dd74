import LogicalWorks.Keyed.Receiver

/-! One effect per key over every sequence of opens, and the reads it depends on. -/
namespace LogicalWorks.Keyed
open Ecs (saturatingAdd durationMax)

variable {H E : Type} {receiver : KeyedReceiver E}

theorem saturatingAdd_le {first second : Nat} (h : first ≤ second) (span : Nat) :
    saturatingAdd first span ≤ saturatingAdd second span := by
  unfold saturatingAdd
  omega

namespace Point

def early : Point E → Bool
  | .reading _ | .fencing _ | .rereading => true
  | _ => false

theorem fenced_cases (began now : Nat) :
    fenced receiver began now = .fencing (saturatingAdd began receiver.inFlightBound) ∨
      fenced receiver began now = .creating now ∧
        saturatingAdd began receiver.inFlightBound ≤ now := by
  unfold fenced
  dsimp only
  split
  · rename_i hfence
    refine .inl (congrArg Point.fencing ?_)
    unfold saturatingAdd at hfence ⊢
    omega
  · rename_i hfence
    exact .inr ⟨rfl, by omega⟩

theorem readOn_cases (lost : E) (unread : Option E) (schedule : ReadBack) (now : Nat) :
    (∃ left wake, (readOn lost unread schedule now : Turn H E) =
      .awaits (.waiting lost unread left wake)) ∨
    (readOn lost unread schedule now : Turn H E) =
      .answers (.error (.indeterminate lost unread)) := by
  unfold readOn
  rcases schedule.spent now with ⟨_ | wait, left⟩
  · exact .inr rfl
  · exact .inl ⟨left, _, rfl⟩

end Point

namespace World

theorem mem_held {world : World H E} {effect : H} :
    effect ∈ world.held ↔
      ∃ request ∈ world.requests, request.landedBy world.clock = true ∧ request.effect = effect := by
  simp [held, and_assoc]

theorem Request.landedBy_mono {request : Request H} {earlier later : Nat}
    (h : request.landedBy earlier = true) (hle : earlier ≤ later) :
    request.landedBy later = true := by
  unfold Request.landedBy at h ⊢
  cases hlanding : request.landing with
  | none => rw [hlanding] at h; cases h
  | some landing =>
    rw [hlanding] at h
    simp only [Option.any_some, decide_eq_true_eq] at h ⊢
    omega

theorem held_mono {before after : World H E} (hclock : before.clock ≤ after.clock)
    (hrequests : before.requests ⊆ after.requests) {effect : H} (h : effect ∈ before.held) :
    effect ∈ after.held := by
  obtain ⟨request, hmem, hlanded, heffect⟩ := mem_held.mp h
  exact mem_held.mpr ⟨request, hrequests hmem, Request.landedBy_mono hlanded hclock, heffect⟩

/-- What is owed by a run: at most one create, an answer that names an effect that exists, and
no word of refusal after a create that may have landed. -/
structure EndedWell (effects : List H) (ended : Ended H E) : Prop where
  calls : ended.opening.creates ≤ 1
  named : ∀ effect how, ended.result = some (.ok (effect, how)) → effect ∈ effects
  settled : ∀ failure, ended.result = some (.error (.unread failure)) ∨
    ended.result = some (.error (.refused failure)) →
      ended.opening.lost = false ∧
        ∀ request, ended.opening.request = some request → request.landing = none

/-- One effect per key: at most one create lands, now or later, and every run is owed its. -/
structure OneEffect (world : World H E) : Prop where
  single : world.landings.length ≤ 1
  calls : ∀ opening, world.running = some opening → opening.creates ≤ 1
  ended : ∀ ended ∈ world.ended, EndedWell world.held ended

def Knows (world : World H E) : Point E → Prop
  | .reading began => began ≤ world.clock ∧ ∀ request ∈ world.requests, request.sent ≤ began
  | .fencing wake => ∀ request ∈ world.requests, ∀ landing,
      request.landing = some landing → landing ≤ wake
  | .rereading => ∀ request ∈ world.requests, ∀ landing,
      request.landing = some landing → landing ≤ world.clock
  | _ => True

structure KeptOpening (world : World H E) (opening : Opening H E) : Prop where
  calls : opening.creates = if opening.point.early then 0 else 1
  request_mem : ∀ request, opening.request = some request → request ∈ world.requests
  untried : opening.point.early = true → opening.request = none
  unlost : opening.point.early = true ∨ opening.point.creates = true → opening.lost = false
  found : ∀ instant effect, opening.sampled = some (instant, .ok (some effect)) →
    effect ∈ world.held
  missed : ∀ instant, opening.sampled = some (instant, .ok none) →
    opening.point.reads = true ∧ instant ≤ world.clock ∧
      (∀ request ∈ world.requests, request.landedBy instant = false) ∧
      (opening.point = .rereading → world.landings = [])
  knows : world.Knows opening.point

structure Kept (receiver : KeyedReceiver E) (world : World H E) : Prop where
  sent : ∀ request ∈ world.requests, request.sent ≤ world.clock ∧
    LandsInTime receiver request.sent request.landing
  running : ∀ opening, world.running = some opening → world.KeptOpening opening
  ended : ∀ ended ∈ world.ended, EndedWell world.held ended

theorem EndedWell.later {before after : World H E} {ended : Ended H E}
    (h : EndedWell before.held ended) (hclock : before.clock ≤ after.clock)
    (hrequests : before.requests ⊆ after.requests) : EndedWell after.held ended where
  calls := h.calls
  named effect how hresult := held_mono hclock hrequests (h.named effect how hresult)
  settled := h.settled

theorem landings_nil {world : World H E} {instant : Nat}
    (hlate : ∀ request ∈ world.requests, ∀ landing, request.landing = some landing → landing ≤ instant)
    (hmissed : ∀ request ∈ world.requests, request.landedBy instant = false) :
    world.landings = [] := by
  refine List.filter_eq_nil_iff.mpr fun request hmem hsome => ?_
  obtain ⟨landing, hlanding⟩ := Option.isSome_iff_exists.mp hsome
  have hlanded := hmissed request hmem
  unfold Request.landedBy at hlanded
  rw [hlanding] at hlanded
  have hle := hlate request hmem landing hlanding
  simp only [Option.any_some, decide_eq_false_iff_not] at hlanded
  exact hlanded hle

theorem Kept.advance {world : World H E} (h : world.Kept receiver) {clock : Nat}
    (hclock : world.clock ≤ clock) : ({ world with clock := clock } : World H E).Kept receiver where
  sent request hmem := ⟨(h.sent request hmem).1.trans hclock, (h.sent request hmem).2⟩
  running opening hrunning := by
    have hkept := h.running opening hrunning
    refine ⟨hkept.calls, hkept.request_mem, hkept.untried, hkept.unlost, ?_, ?_, ?_⟩
    · intro instant effect hsampled
      exact @held_mono H E world { world with clock := clock } hclock (List.Subset.refl _) effect
        (hkept.found instant effect hsampled)
    · intro instant hsampled
      obtain ⟨hreads, hbefore, hrest⟩ := hkept.missed instant hsampled
      exact ⟨hreads, hbefore.trans hclock, hrest⟩
    · have hknows := hkept.knows
      cases hpoint : opening.point with
      | reading began =>
        rw [hpoint] at hknows
        exact ⟨hknows.1.trans hclock, hknows.2⟩
      | fencing wake =>
        rw [hpoint] at hknows
        exact hknows
      | rereading =>
        rw [hpoint] at hknows
        exact fun request hmem landing hlanding =>
          (hknows request hmem landing hlanding).trans hclock
      | _ => trivial
  ended ended hmem := (h.ended ended hmem).later hclock (List.Subset.refl world.requests)

theorem Kept.opened {world : World H E} (h : world.Kept receiver) :
    (world.next receiver .open).Kept receiver where
  sent := h.sent
  running opening hrunning := by
    cases hrunning
    refine ⟨rfl, ?_, fun _ => rfl, fun _ => rfl, ?_, ?_, ⟨le_refl _, ?_⟩⟩
    · intro request hrequest
      cases hrequest
    · intro instant effect hsampled
      cases hsampled
    · intro instant hsampled
      cases hsampled
    · exact fun request hmem => (h.sent request hmem).1
  ended := h.ended

theorem Kept.sampled {world : World H E} (h : world.Kept receiver) {opening : Opening H E}
    {answer : Except E (Option H)} (hrunning : world.running = some opening)
    (hreads : opening.point.reads = true) (htells : world.Tells answer) :
    (world.next receiver (.sample answer)).Kept receiver where
  sent := h.sent
  running other hother := by
    have hkept := h.running opening hrunning
    have hother : some { opening with sampled := some (world.clock, answer) } = some other := by
      rw [← hother]
      unfold next
      rw [hrunning]
      rfl
    cases hother
    refine ⟨hkept.calls, hkept.request_mem, hkept.untried, hkept.unlost, ?_, ?_, hkept.knows⟩
    · intro instant effect hsampled
      cases hsampled
      exact htells
    · intro instant hsampled
      cases hsampled
      have hmissed : ∀ request ∈ world.requests, request.landedBy world.clock = false := by
        intro request hmem
        by_contra hlanded
        have hheld : request.effect ∈ world.held :=
          mem_held.mpr ⟨request, hmem, Bool.eq_true_of_not_eq_false hlanded, rfl⟩
        have hnone : world.held = [] := htells
        rw [hnone] at hheld
        cases hheld
      refine ⟨hreads, le_refl _, hmissed, fun hpoint => ?_⟩
      have hknows := hkept.knows
      have hpoint : opening.point = .rereading := hpoint
      rw [hpoint] at hknows
      exact landings_nil hknows hmissed
  ended := h.ended

theorem Kept.moveTo {world : World H E} (h : world.Kept receiver) {opening : Opening H E}
    {point : Point E} (hcalls : opening.creates + (if point.creates then 1 else 0) =
      if point.early then 0 else 1)
    (hrequest : ∀ request, opening.request = some request → request ∈ world.requests)
    (huntried : point.early = true → opening.request = none)
    (hunlost : point.early = true ∨ point.creates = true → opening.lost = false)
    (hknows : world.Knows point) : (world.moveTo opening point).Kept receiver where
  sent := h.sent
  running other hother := by
    cases hother
    refine ⟨hcalls, ?_, ?_, hunlost, ?_, ?_, hknows⟩
    · intro request hmine
      dsimp only at hmine
      split at hmine
      · cases hmine
      · exact hrequest request hmine
    · intro hearly
      dsimp only at hearly ⊢
      rw [huntried hearly]
      exact ite_self none
    · intro instant effect hsampled
      cases hsampled
    · intro instant hsampled
      cases hsampled
  ended := h.ended

theorem Kept.answers {world : World H E} (h : world.Kept receiver) {opening : Opening H E}
    {result : Except (KeyedError E) (H × Settlement)}
    (hended : EndedWell world.held ⟨opening, some result⟩) :
    (world.take opening (.answers result)).Kept receiver where
  sent := h.sent
  running other hother := by cases hother
  ended ended hmem := by
    rcases List.mem_append.mp hmem with hearlier | hlast
    · exact h.ended ended hearlier
    · rw [List.mem_singleton.mp hlast]
      exact hended

theorem KeptOpening.calls_le {world : World H E} {opening : Opening H E}
    (h : world.KeptOpening opening) : opening.creates ≤ 1 := by
  rw [h.calls]
  split <;> decide

theorem Kept.killed {world : World H E} (h : world.Kept receiver) {opening : Opening H E}
    (hrunning : world.running = some opening) : (world.next receiver .kill).Kept receiver := by
  unfold next
  rw [hrunning]
  dsimp only
  refine ⟨h.sent, fun other hother => (by cases hother), fun ended hmem => ?_⟩
  rcases List.mem_append.mp hmem with hearlier | hlast
  · exact h.ended ended hearlier
  · rw [List.mem_singleton.mp hlast]
    refine ⟨(h.running opening hrunning).calls_le, fun _ _ hresult => ?_, fun _ hresult => ?_⟩
    · cases hresult
    · rcases hresult with hresult | hresult <;> cases hresult

theorem Kept.reached {world : World H E} (h : world.Kept receiver) {opening : Opening H E}
    (hrunning : world.running = some opening) (hcreates : opening.point.creates = true)
    {effect : H} {landing : Option Nat} (hlands : LandsInTime receiver world.clock landing) :
    (world.next receiver (.reach effect landing)).Kept receiver := by
  have hkept := h.running opening hrunning
  have hgrown : world.requests ⊆ world.requests ++ [⟨world.clock, effect, landing⟩] :=
    List.subset_append_left _ _
  unfold next
  rw [hrunning]
  dsimp only
  refine ⟨fun request hmem => ?_, fun other hother => ?_, fun ended hmem => ?_⟩
  · rcases List.mem_append.mp hmem with hearlier | hlast
    · exact h.sent request hearlier
    · rw [List.mem_singleton.mp hlast]
      exact ⟨le_refl _, hlands⟩
  · cases hother
    have hlate : opening.point.early = false ∧ opening.point.reads = false := by
      cases hpoint : opening.point <;> rw [hpoint] at hcreates <;> first | exact ⟨rfl, rfl⟩ | cases hcreates
    refine ⟨hkept.calls, ?_, ?_, hkept.unlost, ?_, ?_, ?_⟩
    · intro request hrequest
      cases hrequest
      exact List.mem_append_right _ (List.mem_singleton_self _)
    · intro hearly
      rw [hlate.1] at hearly
      cases hearly
    · intro instant found hsampled
      have hheld := hkept.found instant found hsampled
      exact @held_mono H E world
        { world with requests := world.requests ++ [⟨world.clock, effect, landing⟩] }
        (le_refl _) hgrown found hheld
    · intro instant hsampled
      have hreads := (hkept.missed instant hsampled).1
      rw [hlate.2] at hreads
      cases hreads
    · cases hpoint : opening.point <;> rw [hpoint] at hcreates <;> trivial
  · exact (h.ended ended hmem).later (le_refl _) hgrown

theorem Kept.woken {world : World H E} (h : world.Kept receiver) {opening : Opening H E}
    {wake : Nat} (hrunning : world.running = some opening)
    (hwake : opening.point.wakeAt = some wake) (hpassed : wake ≤ world.clock) :
    (world.next receiver .woke).Kept receiver := by
  have hkept := h.running opening hrunning
  have hcalls := hkept.calls
  have hknows := hkept.knows
  have huntried := hkept.untried
  have hunlost := hkept.unlost
  unfold next
  rw [hrunning]
  dsimp only
  cases hpoint : opening.point with
  | fencing until_ =>
    rw [hpoint] at hwake hcalls hknows huntried hunlost
    cases hwake
    refine h.moveTo hcalls hkept.request_mem huntried (fun _ => hunlost (.inl rfl)) ?_
    intro request hmem landing hlanding
    exact (hknows request hmem landing hlanding).trans hpassed
  | waiting lost unread schedule until_ =>
    rw [hpoint] at hcalls
    refine h.moveTo hcalls hkept.request_mem (fun hearly => by cases hearly) (fun hpoint => ?_) trivial
    rcases hpoint with hpoint | hpoint <;> cases hpoint
  | _ => rw [hpoint] at hwake; cases hwake

theorem Kept.answered {world : World H E} (h : world.Kept receiver) {opening : Opening H E}
    {answer : Except E H} (hrunning : world.running = some opening)
    (hcreates : opening.point.creates = true) (hconfirms : world.Confirms receiver opening answer) :
    (world.next receiver (.created answer)).Kept receiver := by
  have hkept := h.running opening hrunning
  have hcalls := hkept.calls
  have hunlost := hkept.unlost (.inr hcreates)
  unfold next
  rw [hrunning]
  dsimp only
  cases hpoint : opening.point with
  | creating sent =>
    rw [hpoint] at hcalls
    unfold Point.afterCreate
    cases answer with
    | ok effect =>
      refine h.answers ⟨le_of_eq hcalls, fun found how hresult => ?_, fun failure hresult => ?_⟩
      · cases hresult
        obtain ⟨request, hrequest, rfl, hlanded⟩ := hconfirms
        exact mem_held.mpr ⟨request, hkept.request_mem request hrequest, hlanded, rfl⟩
      · rcases hresult with hresult | hresult <;> cases hresult
    | error failure =>
      dsimp only
      cases hfailure : receiver.createFailure failure with
      | nothingLanded =>
        refine h.answers ⟨le_of_eq hcalls, fun found how hresult => (by cases hresult),
          fun other hresult => ⟨?_, hconfirms hfailure⟩⟩
        dsimp only
        rw [hunlost, losesAnswer, hfailure]
        rfl
      | mayHaveLanded =>
        refine h.moveTo hcalls hkept.request_mem (fun hearly => by cases hearly)
          (fun hpoint => ?_) trivial
        rcases hpoint with hpoint | hpoint <;> cases hpoint
  | _ => rw [hpoint] at hcreates; cases hcreates

theorem Kept.named {world : World H E} (h : world.Kept receiver) {opening : Opening H E}
    (hrunning : world.running = some opening) {instant : Nat} {effect : H} {how : Settlement}
    (hsampled : opening.sampled = some (instant, .ok (some effect))) :
    (world.take opening (.answers (.ok (effect, how)))).Kept receiver := by
  have hkept := h.running opening hrunning
  refine h.answers ⟨hkept.calls_le, fun found other hresult => ?_, fun failure hresult => ?_⟩
  · cases hresult
    exact hkept.found instant effect hsampled
  · rcases hresult with hresult | hresult <;> cases hresult

theorem Kept.unread {world : World H E} (h : world.Kept receiver) {opening : Opening H E}
    (hrunning : world.running = some opening) (hearly : opening.point.early = true) (failure : E) :
    (world.take opening (.answers (.error (.unread failure)))).Kept receiver := by
  have hkept := h.running opening hrunning
  refine h.answers ⟨hkept.calls_le, fun found other hresult => (by cases hresult),
    fun other _ => ⟨hkept.unlost (.inl hearly), fun request hrequest => ?_⟩⟩
  rw [hkept.untried hearly] at hrequest
  cases hrequest

theorem Kept.readOn {world : World H E} (h : world.Kept receiver) {opening : Opening H E}
    (hrunning : world.running = some opening) (hcalls : opening.creates = 1) (lost : E)
    (unread : Option E) (schedule : ReadBack) :
    (world.take opening (Point.readOn lost unread schedule world.clock)).Kept receiver := by
  have hkept := h.running opening hrunning
  rcases Point.readOn_cases lost unread schedule world.clock with ⟨left, wake, hturn⟩ | hturn
  · rw [hturn]
    refine h.moveTo hcalls hkept.request_mem (fun hearly => by cases hearly) (fun hpoint => ?_) trivial
    rcases hpoint with hpoint | hpoint <;> cases hpoint
  · rw [hturn]
    refine h.answers ⟨hkept.calls_le, fun found other hresult => (by cases hresult),
      fun failure hresult => ?_⟩
    rcases hresult with hresult | hresult <;> cases hresult

theorem Kept.found {world : World H E} (h : world.Kept receiver) {opening : Opening H E}
    (hrunning : world.running = some opening) (hreads : opening.point.reads = true) :
    (world.next receiver .found).Kept receiver := by
  have hkept := h.running opening hrunning
  have hcalls := hkept.calls
  have huntried := hkept.untried
  have hunlost := hkept.unlost
  have hknows := hkept.knows
  unfold next
  rw [hrunning]
  dsimp only
  cases hsampled : opening.sampled with
  | none => exact h
  | some sampled =>
    obtain ⟨instant, answer⟩ := sampled
    dsimp only
    cases hpoint : opening.point with
    | reading began =>
      rw [hpoint] at hcalls huntried hunlost hknows
      rcases answer with failure | _ | effect
      · exact h.unread hrunning (by rw [hpoint]; rfl) failure
      · rcases @Point.fenced_cases E receiver began world.clock with hfenced | ⟨hfenced, -⟩
        · unfold Point.afterFind
          dsimp only
          rw [hfenced]
          refine h.moveTo hcalls hkept.request_mem huntried (fun _ => hunlost (.inl rfl)) ?_
          intro request hmem landing hlanding
          have hlands := (h.sent request hmem).2 landing hlanding
          exact hlands.2.trans (saturatingAdd_le (hknows.2 request hmem) _)
        · unfold Point.afterFind
          dsimp only
          rw [hfenced]
          have hcalled : opening.creates + 1 = 1 := by rw [hcalls]; rfl
          exact h.moveTo hcalled hkept.request_mem (fun hearly => by cases hearly)
            (fun _ => hunlost (.inl rfl)) trivial
      · exact h.named hrunning hsampled
    | rereading =>
      rw [hpoint] at hcalls hunlost
      rcases answer with failure | _ | effect
      · exact h.unread hrunning (by rw [hpoint]; rfl) failure
      · have hcalled : opening.creates + 1 = 1 := by rw [hcalls]; rfl
        exact h.moveTo hcalled hkept.request_mem (fun hearly => by cases hearly)
          (fun _ => hunlost (.inl rfl)) trivial
      · exact h.named hrunning hsampled
    | readingBack lost unread schedule =>
      rw [hpoint] at hcalls
      rcases answer with failure | _ | effect
      · exact h.readOn hrunning hcalls lost (some failure) schedule
      · exact h.readOn hrunning hcalls lost unread schedule
      · exact h.named hrunning hsampled
    | _ => rw [hpoint] at hreads; cases hreads

theorem Kept.step {world after : World H E} {event : Event H E} (h : world.Kept receiver)
    (step : world.Step receiver event after) : after.Kept receiver := by
  obtain ⟨henabled, rfl⟩ := step
  cases event with
  | advance clock => exact h.advance henabled.1
  | «open» => exact h.opened
  | sample answer =>
    obtain ⟨opening, hrunning, hreads, -, htells⟩ := henabled
    exact h.sampled hrunning hreads htells
  | found =>
    obtain ⟨opening, hrunning, hreads, -⟩ := henabled
    exact h.found hrunning hreads
  | woke =>
    obtain ⟨opening, wake, hrunning, hwake, hpassed⟩ := henabled
    exact h.woken hrunning hwake hpassed
  | reach effect landing =>
    obtain ⟨opening, hrunning, hcreates, -, hlands⟩ := henabled
    exact h.reached hrunning hcreates hlands
  | created answer =>
    obtain ⟨opening, hrunning, hcreates, hconfirms⟩ := henabled
    exact h.answered hrunning hcreates hconfirms
  | kill =>
    obtain ⟨opening, hrunning⟩ := Option.isSome_iff_exists.mp henabled
    exact h.killed hrunning

theorem kept_new (clock : Nat) : (World.new clock : World H E).Kept receiver where
  sent request hmem := by cases hmem
  running opening hrunning := by cases hrunning
  ended ended hmem := by cases hmem

/-- A first read that found nothing did not outlast the in-flight bound with an answer from
before its end: it was back before the bound was over, or it was answered after. -/
def Unstraddled (receiver : KeyedReceiver E) (world : World H E) (event : Event H E) : Prop :=
  ∀ opening began instant, event = .found → world.running = some opening →
    opening.point = .reading began → opening.sampled = some (instant, .ok none) →
      world.clock < saturatingAdd began receiver.inFlightBound ∨
        saturatingAdd began receiver.inFlightBound ≤ instant

structure Fenced (world : World H E) : Prop where
  single : world.landings.length ≤ 1
  creating : ∀ opening, world.running = some opening → opening.point.creates = true →
    opening.request = none → world.landings = []

theorem Fenced.still {world after : World H E} (h : world.Fenced)
    (hrequests : after.requests = world.requests)
    (hcreating : ∀ opening, after.running = some opening → opening.point.creates = true →
      opening.request = none → world.landings = []) : after.Fenced := by
  have hlandings : after.landings = world.landings := by rw [landings, hrequests, landings]
  exact ⟨hlandings ▸ h.single, hlandings ▸ hcreating⟩

theorem requests_take (world : World H E) (opening : Opening H E) (turn : Turn H E) :
    (world.take opening turn).requests = world.requests := by
  cases turn <;> rfl

theorem creating_take {world : World H E} {opening other : Opening H E} {turn : Turn H E}
    (h : (world.take opening turn).running = some other) (hcreates : other.point.creates = true) :
    ∃ sent, turn = .awaits (.creating sent) := by
  cases turn with
  | awaits point =>
    cases h
    cases point with
    | creating sent => exact ⟨sent, rfl⟩
    | _ => cases hcreates
  | answers result => cases h

theorem afterCreate_ne_creating {opening : Opening H E} (answer : Except E H) (sent : Nat)
    (hcreates : opening.point.creates = true) :
    opening.point.afterCreate receiver answer ≠ .awaits (.creating sent) := by
  cases hpoint : opening.point with
  | creating called =>
    unfold Point.afterCreate
    cases answer with
    | ok effect =>
      intro hturn
      cases hturn
    | error failure =>
      dsimp only
      cases receiver.createFailure failure with
      | nothingLanded =>
        intro hturn
        cases hturn
      | mayHaveLanded =>
        intro hturn
        cases hturn
  | _ => rw [hpoint] at hcreates; cases hcreates

theorem Kept.landings_eq_nil {world : World H E} (h : world.Kept receiver) {opening : Opening H E}
    {instant sent : Nat} {answer : Except E (Option H)} (hrunning : world.running = some opening)
    (hsampled : opening.sampled = some (instant, answer)) (hreads : opening.point.reads = true)
    (hread : world.Unstraddled receiver .found)
    (hturn : opening.point.afterFind receiver world.clock answer = .awaits (.creating sent)) :
    world.landings = [] := by
  have hkept := h.running opening hrunning
  cases hpoint : opening.point with
  | reading began =>
    rw [hpoint] at hturn
    rcases answer with failure | _ | effect
    · cases hturn
    · obtain ⟨-, -, hmissed, -⟩ := hkept.missed instant hsampled
      have hknows := hkept.knows
      rw [hpoint] at hknows
      rcases @Point.fenced_cases E receiver began world.clock with hfenced | ⟨-, hpassed⟩
      · unfold Point.afterFind at hturn
        dsimp only at hturn
        rw [hfenced] at hturn
        cases hturn
      · rcases hread opening began instant rfl hrunning hpoint hsampled with hearly | hlate
        · omega
        · refine landings_nil (fun request hmem landing hlanding => ?_) hmissed
          have hlands := ((h.sent request hmem).2 landing hlanding).2
          exact (hlands.trans (saturatingAdd_le (hknows.2 request hmem) _)).trans hlate
    · cases hturn
  | rereading =>
    rw [hpoint] at hturn
    rcases answer with failure | _ | effect
    · cases hturn
    · exact (hkept.missed instant hsampled).2.2.2 hpoint
    · cases hturn
  | readingBack lost unread schedule =>
    rw [hpoint] at hturn
    rcases answer with failure | _ | effect
    · rcases Point.readOn_cases lost (some failure) schedule world.clock with ⟨_, _, h⟩ | h
      · exact absurd (h.symm.trans hturn) (by simp)
      · exact absurd (h.symm.trans hturn) (by simp)
    · rcases Point.readOn_cases lost unread schedule world.clock with ⟨_, _, h⟩ | h
      · exact absurd (h.symm.trans hturn) (by simp)
      · exact absurd (h.symm.trans hturn) (by simp)
    · cases hturn
  | _ => rw [hpoint] at hreads; cases hreads

theorem Fenced.step {world after : World H E} {event : Event H E} (h : world.Fenced)
    (hkept : world.Kept receiver) (hread : world.Unstraddled receiver event)
    (step : world.Step receiver event after) : after.Fenced := by
  obtain ⟨henabled, rfl⟩ := step
  cases event with
  | advance clock => exact h.still rfl h.creating
  | «open» => exact h.still rfl fun opening hrunning hcreates => by cases hrunning; cases hcreates
  | sample answer =>
    obtain ⟨opening, hrunning, hreads, -, -⟩ := henabled
    refine h.still rfl fun other hother hcreates hrequest => ?_
    unfold next at hother
    rw [hrunning] at hother
    cases hother
    exact h.creating opening hrunning hcreates hrequest
  | found =>
    obtain ⟨opening, hrunning, hreads, hsome⟩ := henabled
    obtain ⟨⟨instant, answer⟩, hsampled⟩ := Option.isSome_iff_exists.mp hsome
    unfold next
    rw [hrunning]
    dsimp only
    rw [hsampled]
    refine h.still (requests_take _ _ _) fun other hother hcreates _ => ?_
    obtain ⟨sent, hturn⟩ := creating_take hother hcreates
    exact hkept.landings_eq_nil hrunning hsampled hreads hread hturn
  | woke =>
    obtain ⟨opening, wake, hrunning, hwake, -⟩ := henabled
    unfold next
    rw [hrunning]
    refine h.still rfl fun other hother hcreates _ => ?_
    cases hother
    have hcreates : opening.point.afterSleep.creates = true := hcreates
    cases hpoint : opening.point with
    | fencing until_ | waiting lost unread schedule until_ => rw [hpoint] at hcreates; cases hcreates
    | _ => rw [hpoint] at hwake; cases hwake
  | reach effect landing =>
    obtain ⟨opening, hrunning, hcreates, hrequest, -⟩ := henabled
    have hnone := h.creating opening hrunning hcreates hrequest
    have hlandings : (world.next receiver (.reach effect landing)).landings =
        world.landings ++ [(⟨world.clock, effect, landing⟩ : Request H)].filter
          fun request => request.landing.isSome := List.filter_append ..
    refine ⟨?_, fun other hother _ hunsent => ?_⟩
    · rw [hlandings, hnone, List.nil_append]
      exact List.length_filter_le _ _
    · unfold next at hother
      rw [hrunning] at hother
      cases hother
      cases hunsent
  | created answer =>
    obtain ⟨opening, hrunning, hcreates, -⟩ := henabled
    unfold next
    rw [hrunning]
    refine h.still (requests_take _ _ _) fun other hother hcreates' _ => ?_
    obtain ⟨sent, hturn⟩ := creating_take hother hcreates'
    exact absurd hturn (afterCreate_ne_creating answer sent hcreates)
  | kill =>
    obtain ⟨opening, hrunning⟩ := Option.isSome_iff_exists.mp henabled
    unfold next
    rw [hrunning]
    exact h.still rfl fun other hother => by cases hother

end World

open World

/-- Opens of one draft keep one effect per key in every run whose first reads never straddle the
end of the in-flight bound: a read that found nothing was back before the bound was over since
its open began, or was answered after. -/
theorem openOnce_keeps_one_effect {clock : Nat} {trace : List (World H E × Event H E)}
    {final : World H E} (run : Run (Step receiver) (World.new clock) trace final)
    (hreads : ∀ taken ∈ trace, Unstraddled receiver taken.1 taken.2) : OneEffect final := by
  have hboth : final.Kept receiver ∧ final.Fenced :=
    run.invariant (I := fun world => world.Kept receiver ∧ world.Fenced)
      ⟨kept_new clock, ⟨Nat.zero_le _, fun _ hrunning => by cases hrunning⟩⟩
      (fun world event next h hread hstep => ⟨h.1.step hstep, h.2.step h.1 hread hstep⟩) hreads
  exact ⟨hboth.2.single, fun opening hrunning => (hboth.1.running opening hrunning).calls_le,
    hboth.1.ended⟩

def slow : KeyedReceiver Unit := ⟨fun _ => .mayHaveLanded, 10⟩

/-- A run is killed with its create in flight; the next one's first read is answered before it
lands and comes back after the bound, so its own create is a second one. -/
def straddling : List (Event Nat Unit) :=
  [.open, .sample (.ok none), .found, .advance 10, .woke, .sample (.ok none), .found,
    .reach 1 (some 15), .kill, .open, .sample (.ok none), .advance 20, .found, .reach 2 (some 20)]

theorem straddling_runs :
    Run (Step slow) (World.new 0) (traceOf (World.next slow) (World.new 0) straddling)
      (straddling.foldl (World.next slow) (World.new 0)) := by
  refine Run.ofEnabled (World.next slow) (World.new 0) straddling fun taken hmem => ⟨?_, rfl⟩
  simp only [traceOf, straddling, List.mem_cons, List.not_mem_nil, or_false] at hmem
  rcases hmem with rfl | rfl | rfl | rfl | rfl | rfl | rfl | rfl | rfl | rfl | rfl | rfl | rfl | rfl
  · exact rfl
  · exact ⟨_, rfl, rfl, rfl, rfl⟩
  · exact ⟨_, rfl, rfl, rfl⟩
  · exact ⟨by decide, by decide⟩
  · exact ⟨_, 10, rfl, rfl, by decide⟩
  · exact ⟨_, rfl, rfl, rfl, rfl⟩
  · exact ⟨_, rfl, rfl, rfl⟩
  · refine ⟨_, rfl, rfl, rfl, fun instant hinstant => ?_⟩
    cases hinstant
    decide
  · exact rfl
  · exact rfl
  · exact ⟨_, rfl, rfl, rfl, rfl⟩
  · exact ⟨by decide, by decide⟩
  · exact ⟨_, rfl, rfl, rfl⟩
  · refine ⟨_, rfl, rfl, rfl, fun instant hinstant => ?_⟩
    cases hinstant
    decide

/-- The killed run's create and the next run's both land. -/
theorem slow_read_makes_a_second_effect :
    ∃ trace final, Run (Step slow) (World.new 0) trace final ∧ ¬ OneEffect (H := Nat) final := by
  refine ⟨_, _, straddling_runs, fun h => ?_⟩
  have hsingle := h.single
  revert hsingle
  decide

def prompt : List (Event Nat Unit) :=
  [.open, .sample (.ok none), .found, .advance 10, .woke, .sample (.ok none), .found,
    .reach 1 (some 10), .created (.ok 1)]

theorem prompt_read_keeps_one_effect :
    OneEffect (prompt.foldl (World.next slow) (World.new 0)) := by
  refine @openOnce_keeps_one_effect Nat Unit slow 0
    (traceOf (World.next slow) (World.new 0) prompt) _ ?_ ?_
  · refine Run.ofEnabled (World.next slow) (World.new 0) prompt fun taken hmem => ⟨?_, rfl⟩
    simp only [traceOf, prompt, List.mem_cons, List.not_mem_nil, or_false] at hmem
    rcases hmem with rfl | rfl | rfl | rfl | rfl | rfl | rfl | rfl | rfl
    · exact rfl
    · exact ⟨_, rfl, rfl, rfl, rfl⟩
    · exact ⟨_, rfl, rfl, rfl⟩
    · exact ⟨by decide, by decide⟩
    · exact ⟨_, 10, rfl, rfl, by decide⟩
    · exact ⟨_, rfl, rfl, rfl, rfl⟩
    · exact ⟨_, rfl, rfl, rfl⟩
    · refine ⟨_, rfl, rfl, rfl, fun instant hinstant => ?_⟩
      cases hinstant
      decide
    · exact ⟨_, rfl, rfl, ⟨_, rfl, rfl, rfl⟩⟩
  · intro taken hmem opening began instant hfound hrunning hpoint _
    simp only [traceOf, prompt, List.mem_cons, List.not_mem_nil, or_false] at hmem
    rcases hmem with rfl | rfl | rfl | rfl | rfl | rfl | rfl | rfl | rfl
    case inr.inr.inl =>
      cases hrunning
      cases hpoint
      exact .inl (by decide)
    case inr.inr.inr.inr.inr.inr.inl =>
      cases hrunning
      cases hpoint
    all_goals cases hfound

end LogicalWorks.Keyed
