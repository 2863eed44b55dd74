import LogicalWorks.Ecs.Parking
import LogicalWorks.Ecs.WakeProtocol

/-! A wake is heard: while no tick lets go of a wake it took, and no call of `wake` relies on a flag
whose setter has yet to raise the world's, every wake is signalled, being served, or answered. -/
namespace LogicalWorks.Ecs

def Answers (chain : Nat) (events : List WakeEvent) : Prop :=
  ∃ before between after, events = before ++ .begun chain :: (between ++ .answered chain :: after)

/-- A wake that is still owed an answer, and whether a poll of its chain began since. -/
structure OwedWake where
  call : Nat
  chain : Nat
  begun : Bool
  deriving DecidableEq, Repr

def noteOwed (owed : List OwedWake) : WakeEvent → List OwedWake
  | .woken call chain => owed ++ [⟨call, chain, false⟩]
  | .begun chain => owed.map fun wake =>
    if wake.chain = chain then { wake with begun := true } else wake
  | .answered chain => owed.filter fun wake => !(wake.chain = chain && wake.begun)

def owedAfter (events : List WakeEvent) : List OwedWake := events.foldl noteOwed []

theorem mem_foldl_noteOwed {owed : List OwedWake} {call chain : Nat} {after : List WakeEvent}
    (hwake : ⟨call, chain, false⟩ ∈ owed) (hanswers : ¬Answers chain after) :
    ⟨call, chain, decide (.begun chain ∈ after)⟩ ∈ after.foldl noteOwed owed := by
  induction after using List.reverseRecOn with
  | nil => simpa using hwake
  | append_singleton events event ih =>
    have hearlier : ¬Answers chain events := by
      rintro ⟨before, between, rest, rfl⟩
      exact hanswers ⟨before, between, rest ++ [event], by simp⟩
    specialize ih hearlier
    rw [List.foldl_append, List.foldl_cons, List.foldl_nil]
    cases event with
    | woken other place =>
      have hsame : decide (WakeEvent.begun chain ∈ events ++ [.woken other place]) =
          decide (WakeEvent.begun chain ∈ events) := by simp
      rw [hsame]
      exact List.mem_append_left _ ih
    | begun place =>
      refine List.mem_map.mpr ⟨_, ih, ?_⟩
      by_cases hplace : chain = place
      · simp [hplace]
      · simp [hplace]
    | answered place =>
      have hsame : decide (WakeEvent.begun chain ∈ events ++ [.answered place]) =
          decide (WakeEvent.begun chain ∈ events) := by simp
      rw [hsame]
      refine List.mem_filter.mpr ⟨ih, ?_⟩
      by_cases hplace : chain = place
      · subst hplace
        have hnot : WakeEvent.begun chain ∉ events := by
          intro hbegun
          obtain ⟨before, between, rfl⟩ := List.append_of_mem hbegun
          exact hanswers ⟨before, between, [], by simp⟩
        simp [hnot]
      · simp [hplace]

theorem mem_owedAfter {before after : List WakeEvent} {call chain : Nat}
    (hanswers : ¬Answers chain after) :
    ∃ begun, ⟨call, chain, begun⟩ ∈ owedAfter (before ++ .woken call chain :: after) := by
  refine ⟨decide (.begun chain ∈ after), ?_⟩
  unfold owedAfter
  rw [List.foldl_append, List.foldl_cons]
  exact mem_foldl_noteOwed (List.mem_append_right _ (List.mem_singleton_self _)) hanswers

namespace WakeWorld

def Signalled (world : WakeWorld) (chain : Nat) : Prop :=
  world.cadences.pending[chain]? = some true ∧ world.cadences.any = true

/-- A tick underway took the chain's wake, or is about to, and its poll has yet to end. -/
def Serving (world : WakeWorld) (chain : Nat) : Prop :=
  match world.tick with
  | none => False
  | some (.taking woken) =>
    (woken.length ≤ chain ∧ world.cadences.pending[chain]? = some true) ∨
      woken[chain]? = some true
  | some (.polling woken starting waves running) =>
    woken[chain]? = some true ∧ chain ∈ starting ++ waves.flatten ++ running

/-- Every wake whose call has returned is signalled, being served, or answered by a poll that began
after it; and a world that says it is idle has answered them all. -/
structure Heard (world : WakeWorld) : Prop where
  kept : ∀ before after call chain, world.history = before ++ .woken call chain :: after →
    world.calls[call]? = some ⟨chain, .returned⟩ →
      world.Signalled chain ∨ Answers chain after ∨ world.Serving chain
  awake : world.tick = none → ∀ retry clock, world.cadences.nextTick retry clock = .idle →
    ∀ before after call chain, world.history = before ++ .woken call chain :: after →
      world.calls[call]? = some ⟨chain, .returned⟩ → Answers chain after

/-- The call finds the flag set, and so says nothing to the world itself. -/
def Coalesces (world : WakeWorld) (call : WakeCall) : Prop :=
  (call.point = .loading ∨ call.point = .swapping) ∧
    world.cadences.pending[call.chain]? = some true

/-- A step that lets no wake go: a tick ends with the wakes it took all answered, and a call that
finds the flag set finds it set by one that has raised the world's flag. -/
def Heeds (world : WakeWorld) : WakeStep → Prop
  | .turn id => ∀ call, world.calls[id]? = some call → world.Coalesces call →
      ⟨call.chain, .raising⟩ ∉ world.calls
  | .resolve chain ending => ending ≠ .answered → world.cadences.kinds[chain]? ≠ some .wake
  | .drop => ∀ chain, world.cadences.kinds[chain]? = some .wake → ¬world.Serving chain
  | _ => True

def Underway (world : WakeWorld) (wake : OwedWake) : Prop :=
  match world.tick with
  | none => False
  | some (.taking woken) =>
    (woken.length ≤ wake.chain ∧ world.cadences.pending[wake.chain]? = some true) ∨
      woken[wake.chain]? = some true
  | some (.polling woken starting waves running) =>
    woken[wake.chain]? = some true ∧
      (wake.chain ∈ starting ++ waves.flatten ∨ wake.chain ∈ running ∧ wake.begun = true)

def Standing (world : WakeWorld) (wake : OwedWake) : CallPoint → Prop
  | .loading | .swapping => False
  | .raising => world.cadences.pending[wake.chain]? = some true ∨ world.Underway wake
  | .waking | .returned => world.Signalled wake.chain ∨ world.Underway wake

def Untaken (world : WakeWorld) (chain : Nat) : Prop :=
  ∃ woken, world.tick = some (.taking woken) ∧ woken.length ≤ chain

structure Kept (world : WakeWorld) : Prop where
  sizes : world.cadences.pending.length = world.cadences.kinds.length
  handles : ∀ call ∈ world.calls, world.cadences.kinds[call.chain]? = some .wake
  owed : ∀ wake ∈ owedAfter world.history, ∃ point,
    world.calls[wake.call]? = some ⟨wake.chain, point⟩ ∧ world.Standing wake point
  raised : ∀ chain, world.cadences.pending[chain]? = some true →
    world.cadences.any = true ∨ ⟨chain, .raising⟩ ∈ world.calls ∨ world.Untaken chain

variable {world after : WakeWorld}

theorem Underway.serving {wake : OwedWake} (h : world.Underway wake) : world.Serving wake.chain := by
  unfold Underway at h
  unfold Serving
  cases htick : world.tick with
  | none => rw [htick] at h; exact h
  | some tick =>
    rw [htick] at h
    cases tick with
    | taking woken => exact h
    | polling woken starting waves running =>
      refine ⟨h.1, ?_⟩
      rcases h.2 with hlater | ⟨hrunning, -⟩
      · exact List.mem_append_left _ hlater
      · exact List.mem_append_right _ hrunning

theorem Kept.heard (h : world.Kept) : world.Heard := by
  have hreturned {before rest : List WakeEvent} {call chain : Nat}
      (hhistory : world.history = before ++ .woken call chain :: rest)
      (hcall : world.calls[call]? = some ⟨chain, .returned⟩) (hanswers : ¬Answers chain rest) :
      ∃ begun, world.Signalled chain ∨ world.Underway ⟨call, chain, begun⟩ := by
    obtain ⟨begun, howed⟩ := @mem_owedAfter before rest call chain hanswers
    obtain ⟨point, hpoint, hstanding⟩ := h.owed _ (hhistory ▸ howed)
    cases hcall.symm.trans hpoint
    exact ⟨begun, hstanding⟩
  constructor
  · intro before rest call chain hhistory hcall
    by_cases hanswers : Answers chain rest
    · exact .inr (.inl hanswers)
    · obtain ⟨begun, hsignalled | hunderway⟩ := hreturned hhistory hcall hanswers
      · exact .inl hsignalled
      · exact .inr (.inr hunderway.serving)
  · intro htick retry clock hidle before rest call chain hhistory hcall
    by_contra hanswers
    obtain ⟨begun, hsignalled | hunderway⟩ := hreturned hhistory hcall hanswers
    · unfold Cadences.nextTick at hidle
      rw [if_pos hsignalled.2] at hidle
      cases hidle
    · unfold Underway at hunderway
      rw [htick] at hunderway
      exact hunderway

theorem kept_new (kinds : List Cadence) : (new kinds).Kept where
  sizes := List.length_map _
  handles := fun call hmem => (by cases hmem)
  owed := fun wake hmem => (by cases hmem)
  raised := by
    intro chain hpending
    refine .inl ?_
    change (kinds.map _)[chain]? = some true at hpending
    obtain ⟨kind, hkind, hwake⟩ := by rwa [List.getElem?_map, Option.map_eq_some_iff] at hpending
    exact List.any_eq_true.mpr ⟨kind, List.mem_of_getElem? hkind, hwake⟩

/-- A wake stands where its flag was kept or is served, and its poll is still to answer. -/
theorem Standing.shift {wake : OwedWake} {point : CallPoint} (h : world.Standing wake point)
    (hflag : world.cadences.pending[wake.chain]? = some true →
      after.cadences.pending[wake.chain]? = some true ∧
        (world.cadences.any = true → after.cadences.any = true) ∨ after.Underway wake)
    (hunderway : world.Underway wake → after.Underway wake) : after.Standing wake point := by
  have hsignalled (hset : world.Signalled wake.chain) :
      after.Signalled wake.chain ∨ after.Underway wake :=
    (hflag hset.1).imp_left fun hkept => ⟨hkept.1, hkept.2 hset.2⟩
  cases point with
  | loading => exact h
  | swapping => exact h
  | raising =>
    rcases h with hset | hserved
    · exact (hflag hset).imp_left And.left
    · exact .inr (hunderway hserved)
  | waking => exact h.elim hsignalled fun hserved => .inr (hunderway hserved)
  | returned => exact h.elim hsignalled fun hserved => .inr (hunderway hserved)

theorem Standing.mono {wake : OwedWake} {point : CallPoint} (h : world.Standing wake point)
    (hpending : world.cadences.pending[wake.chain]? = some true →
      after.cadences.pending[wake.chain]? = some true)
    (hany : world.cadences.any = true → after.cadences.any = true)
    (hunderway : world.Underway wake → after.Underway wake) : after.Standing wake point :=
  h.shift (fun hset => .inl ⟨hpending hset, hany⟩) hunderway

theorem Underway.mono {wake : OwedWake} (h : world.Underway wake) (htick : after.tick = world.tick)
    (hpending : world.cadences.pending[wake.chain]? = some true →
      after.cadences.pending[wake.chain]? = some true) : after.Underway wake := by
  unfold Underway at h ⊢
  rw [htick]
  split at h
  · exact h
  · exact h.imp (fun huntaken => ⟨huntaken.1, hpending huntaken.2⟩) id
  · exact h

theorem Untaken.mono {chain : Nat} (h : world.Untaken chain) (htick : after.tick = world.tick) :
    after.Untaken chain := by
  obtain ⟨woken, hwoken, hle⟩ := h
  exact ⟨woken, htick.trans hwoken, hle⟩

theorem Standing.same {wake : OwedWake} {point : CallPoint} (h : world.Standing wake point)
    (hcadences : after.cadences = world.cadences) (htick : after.tick = world.tick) :
    after.Standing wake point := by
  refine h.mono ?_ ?_ fun hunderway => hunderway.mono htick ?_
  all_goals
    rw [hcadences]
    exact fun hflag => hflag

theorem Kept.moved (h : world.Kept) {id : Nat} {call : WakeCall} {point : CallPoint}
    (hcall : world.calls[id]? = some call)
    (hkinds : after.cadences.kinds = world.cadences.kinds)
    (hsizes : after.cadences.pending.length = world.cadences.pending.length)
    (hcalls : after.calls = world.calls.set id ⟨call.chain, point⟩)
    (hothers : ∀ wake point, world.Standing wake point → after.Standing wake point)
    (hown : ∀ wake, wake.chain = call.chain → world.Standing wake call.point →
      after.Standing wake point)
    (howed : ∀ wake ∈ owedAfter after.history, wake ∈ owedAfter world.history ∨
      wake = ⟨id, call.chain, false⟩ ∧ after.Standing wake point)
    (hraised : ∀ chain, after.cadences.pending[chain]? = some true →
      after.cadences.any = true ∨ ⟨chain, .raising⟩ ∈ after.calls ∨ after.Untaken chain) :
    after.Kept := by
  have hid : id < world.calls.length := (List.getElem?_eq_some_iff.mp hcall).1
  have hself : after.calls[id]? = some ⟨call.chain, point⟩ := by
    rw [hcalls, List.getElem?_set_self hid]
  refine ⟨by rw [hsizes, hkinds, h.sizes], ?_, ?_, hraised⟩
  · intro other hmem
    rw [hkinds]
    rw [hcalls] at hmem
    rcases List.mem_or_eq_of_mem_set hmem with hmem | rfl
    · exact h.handles other hmem
    · exact h.handles call (List.mem_of_getElem? hcall)
  · intro wake hmem
    rcases howed wake hmem with hbefore | ⟨rfl, hstanding⟩
    · obtain ⟨stood, hplace, hstanding⟩ := h.owed wake hbefore
      by_cases hsame : wake.call = id
      · rw [hsame, hcall] at hplace
        cases hplace
        exact ⟨point, hsame ▸ hself, hown wake rfl hstanding⟩
      · refine ⟨stood, ?_, hothers wake stood hstanding⟩
        rw [hcalls, List.getElem?_set_ne (Ne.symm hsame)]
        exact hplace
    · exact ⟨point, hself, hstanding⟩

theorem mem_calls_set {calls : List WakeCall} {id chain : Nat} {call moved : WakeCall}
    (hcall : calls[id]? = some call) (hpoint : call.point ≠ .raising)
    (h : ⟨chain, .raising⟩ ∈ calls) : ⟨chain, .raising⟩ ∈ calls.set id moved := by
  obtain ⟨place, hplace⟩ := List.mem_iff_getElem?.mp h
  have hne : id ≠ place := by
    rintro rfl
    cases hcall.symm.trans hplace
    exact hpoint rfl
  exact List.mem_iff_getElem?.mpr ⟨place, by rw [List.getElem?_set_ne hne, hplace]⟩

theorem owedAfter_append (events : List WakeEvent) (event : WakeEvent) :
    owedAfter (events ++ [event]) = noteOwed (owedAfter events) event := by
  simp [owedAfter]

theorem Kept.raised_move (h : world.Kept) {id : Nat} {call moved : WakeCall}
    (hcall : world.calls[id]? = some call) (hpoint : call.point ≠ .raising)
    (hcadences : after.cadences = world.cadences) (htick : after.tick = world.tick)
    (hcalls : after.calls = world.calls.set id moved) :
    ∀ chain, after.cadences.pending[chain]? = some true →
      after.cadences.any = true ∨ ⟨chain, .raising⟩ ∈ after.calls ∨ after.Untaken chain := by
  intro chain hpending
  rw [hcadences] at hpending ⊢
  rcases h.raised chain hpending with hany | hraising | huntaken
  · exact .inl hany
  · exact .inr (.inl (hcalls ▸ mem_calls_set hcall hpoint hraising))
  · exact .inr (.inr (huntaken.mono htick))

theorem Kept.coalesced (h : world.Kept) {id : Nat} {call : WakeCall}
    (hcall : world.calls[id]? = some call) (hcoalesces : world.Coalesces call)
    (hheeds : ⟨call.chain, .raising⟩ ∉ world.calls) :
    ((world.note (.woken id call.chain)).moveCall id call .returned).Kept := by
  obtain ⟨hpoint, hpending⟩ := hcoalesces
  have hnotRaising : call.point ≠ .raising := by
    rcases hpoint with hpoint | hpoint <;> rw [hpoint] <;> intro hcontra <;> cases hcontra
  refine h.moved hcall rfl rfl rfl (fun wake point hstanding => ?_) (fun wake hchain hstanding => ?_)
    (fun wake hmem => ?_) (h.raised_move hcall hnotRaising rfl rfl rfl)
  · exact hstanding.same rfl rfl
  · rcases hpoint with hpoint | hpoint <;> rw [hpoint] at hstanding <;> cases hstanding
  · change wake ∈ owedAfter (world.history ++ [_]) at hmem
    rw [owedAfter_append] at hmem
    rcases List.mem_append.mp hmem with hmem | hmem
    · exact .inl hmem
    · cases List.mem_singleton.mp hmem
      refine .inr ⟨rfl, ?_⟩
      rcases h.raised call.chain hpending with hany | hraising | ⟨woken, htick, huntaken⟩
      · exact .inl ⟨hpending, hany⟩
      · exact absurd hraising hheeds
      · refine .inr ?_
        have hafter : ((world.note (.woken id call.chain)).moveCall id call .returned).tick =
            some (.taking woken) := htick
        unfold Underway
        rw [hafter]
        exact .inl ⟨huntaken, hpending⟩

theorem Kept.turn (h : world.Kept) {id : Nat} {call : WakeCall}
    (hcall : world.calls[id]? = some call)
    (hheeds : world.Coalesces call → ⟨call.chain, .raising⟩ ∉ world.calls) :
    (world.turn id call).Kept := by
  have hsame {point : CallPoint} {wake : OwedWake} {stood : CallPoint}
      (hstanding : world.Standing wake stood) :
      (world.moveCall id call point).Standing wake stood := hstanding.same rfl rfl
  have hnone {wake : OwedWake} {point : CallPoint} (hpoint : call.point = .loading)
      (hstanding : world.Standing wake call.point) :
      (world.moveCall id call point).Standing wake point := by
    rw [hpoint] at hstanding
    cases hstanding
  unfold WakeWorld.turn
  cases hpoint : call.point with
  | loading =>
    have hnot : call.point ≠ .raising := by rw [hpoint]; intro hcontra; cases hcontra
    cases hflag : world.cadences.pending[call.chain]? with
    | none =>
      exact h.moved hcall rfl rfl rfl (fun _ _ => hsame) (fun _ _ => hnone hpoint)
        (fun wake hmem => .inl hmem) (h.raised_move hcall hnot rfl rfl rfl)
    | some flag =>
      cases flag with
      | true => exact h.coalesced hcall ⟨.inl hpoint, hflag⟩ (hheeds ⟨.inl hpoint, hflag⟩)
      | false =>
        exact h.moved hcall rfl rfl rfl (fun _ _ => hsame) (fun _ _ => hnone hpoint)
          (fun wake hmem => .inl hmem) (h.raised_move hcall hnot rfl rfl rfl)
  | swapping =>
    by_cases hflag : world.cadences.pending[call.chain]? = some true
    · simp only [if_pos hflag]
      exact h.coalesced hcall ⟨.inr hpoint, hflag⟩ (hheeds ⟨.inr hpoint, hflag⟩)
    · simp only [if_neg hflag]
      have hnot : call.point ≠ .raising := by rw [hpoint]; intro hcontra; cases hcontra
      have hkind := h.handles call (List.mem_of_getElem? hcall)
      have hin : call.chain < world.cadences.pending.length :=
        h.sizes ▸ (List.getElem?_eq_some_iff.mp hkind).1
      have hset : (world.cadences.pending.set call.chain true)[call.chain]? = some true :=
        List.getElem?_set_self hin
      have hkept {chain : Nat} (hpending : world.cadences.pending[chain]? = some true) :
          (world.cadences.pending.set call.chain true)[chain]? = some true := by
        by_cases hchain : call.chain = chain
        · exact hchain ▸ hset
        · rwa [List.getElem?_set_ne hchain]
      refine h.moved hcall rfl (List.length_set ..) rfl (fun wake point hstanding => ?_)
        (fun wake hchain hstanding => ?_) (fun wake hmem => ?_) (fun chain hpending => ?_)
      · exact hstanding.mono hkept (fun hany => hany) fun hunderway => hunderway.mono rfl hkept
      · rw [hpoint] at hstanding
        cases hstanding
      · change wake ∈ owedAfter (world.history ++ [_]) at hmem
        rw [owedAfter_append] at hmem
        rcases List.mem_append.mp hmem with hmem | hmem
        · exact .inl hmem
        · cases List.mem_singleton.mp hmem
          exact .inr ⟨rfl, .inl hset⟩
      · by_cases hchain : call.chain = chain
        · subst hchain
          exact .inr (.inl (List.mem_set (List.getElem?_eq_some_iff.mp hcall).1 _))
        · change (world.cadences.pending.set call.chain true)[chain]? = some true at hpending
          rw [List.getElem?_set_ne hchain] at hpending
          rcases h.raised chain hpending with hany | hraising | huntaken
          · exact .inl hany
          · exact .inr (.inl (mem_calls_set hcall hnot hraising))
          · exact .inr (.inr (huntaken.mono rfl))
  | raising =>
    refine h.moved hcall rfl rfl rfl (fun wake point hstanding => ?_)
      (fun wake hchain hstanding => ?_) (fun wake hmem => .inl hmem) (fun chain _ => .inl rfl)
    · exact hstanding.mono (fun hflag => hflag) (fun _ => rfl)
        fun hunderway => hunderway.mono rfl fun hflag => hflag
    · rw [hpoint] at hstanding
      exact hstanding.imp (fun hflag => ⟨hflag, rfl⟩)
        fun hunderway => hunderway.mono rfl fun hflag => hflag
  | waking =>
    have hnot : call.point ≠ .raising := by rw [hpoint]; intro hcontra; cases hcontra
    refine h.moved hcall rfl rfl rfl (fun wake point hstanding => hstanding.same rfl rfl)
      (fun wake hchain hstanding => ?_) (fun wake hmem => .inl hmem)
      (h.raised_move hcall hnot rfl rfl rfl)
    rw [hpoint] at hstanding
    have hreturned : world.Standing wake .returned := hstanding
    exact hreturned.same rfl rfl
  | returned => exact h

theorem Kept.ticked (h : world.Kept) (hkinds : after.cadences.kinds = world.cadences.kinds)
    (hsizes : after.cadences.pending.length = world.cadences.pending.length)
    (hcalls : after.calls = world.calls)
    (howed : ∀ wake ∈ owedAfter after.history, ∃ earlier ∈ owedAfter world.history,
      earlier.call = wake.call ∧ earlier.chain = wake.chain ∧
        ∀ point, world.cadences.kinds[wake.chain]? = some .wake →
          world.Standing earlier point → after.Standing wake point)
    (hraised : ∀ chain, after.cadences.pending[chain]? = some true →
      after.cadences.any = true ∨ ⟨chain, .raising⟩ ∈ world.calls ∨ after.Untaken chain) :
    after.Kept := by
  refine ⟨by rw [hsizes, hkinds, h.sizes], by rw [hcalls, hkinds]; exact h.handles, ?_, ?_⟩
  · intro wake hmem
    obtain ⟨earlier, hearlier, hcall, hchain, hstands⟩ := howed wake hmem
    obtain ⟨point, hplace, hstanding⟩ := h.owed earlier hearlier
    rw [hcall, hchain] at hplace
    refine ⟨point, hcalls ▸ hplace, hstands point ?_ hstanding⟩
    exact h.handles _ (List.mem_of_getElem? hplace)
  · rw [hcalls]
    exact hraised

theorem Kept.beginTick (h : world.Kept) (htick : world.tick = none) :
    (world.next .beginTick).Kept := by
  refine h.ticked rfl rfl rfl (fun wake hmem => ⟨wake, hmem, rfl, rfl, fun point _ hstanding => ?_⟩)
    (fun chain _ => .inr (.inr ⟨[], rfl, Nat.zero_le _⟩))
  refine hstanding.shift (fun hset => .inr (.inl ⟨Nat.zero_le _, hset⟩)) fun hunderway => ?_
  unfold Underway at hunderway
  rw [htick] at hunderway
  exact hunderway.elim

theorem Kept.takeFlag (h : world.Kept) {woken : List Bool}
    (htick : world.tick = some (.taking woken)) : (world.takeFlag woken).Kept := by
  have hothers {chain : Nat} (hchain : woken.length ≠ chain) :
      (world.cadences.pending.set woken.length false)[chain]? =
        world.cadences.pending[chain]? := List.getElem?_set_ne hchain
  refine h.ticked rfl (List.length_set ..) rfl
    (fun wake hmem => ⟨wake, hmem, rfl, rfl, fun point _ hstanding => ?_⟩) fun chain hpending => ?_
  · by_cases hchain : woken.length = wake.chain
    · have htaken (hset : world.cadences.pending[wake.chain]? = some true) :
          (world.takeFlag woken).Underway wake := by
        refine .inr ?_
        rw [← hchain, List.getElem?_concat_length, hchain]
        exact congrArg some (decide_eq_true hset)
      refine hstanding.shift (fun hset => .inr (htaken hset)) fun hunderway => ?_
      unfold Underway at hunderway
      rw [htick] at hunderway
      rcases hunderway with ⟨-, hset⟩ | hwoken
      · exact htaken hset
      · rw [← hchain, List.getElem?_eq_none le_rfl] at hwoken
        cases hwoken
    · refine hstanding.shift (fun hset => .inl ⟨?_, fun hany => hany⟩) fun hunderway => ?_
      · exact (hothers hchain).trans hset
      · unfold Underway at hunderway
        rw [htick] at hunderway
        rcases hunderway with ⟨hle, hset⟩ | hwoken
        · refine .inl ⟨?_, (hothers hchain).trans hset⟩
          rw [List.length_append, List.length_singleton]
          omega
        · exact .inr ((List.getElem?_append_left (List.getElem?_eq_some_iff.mp hwoken).1).trans hwoken)
  · by_cases hchain : woken.length = chain
    · subst hchain
      change (world.cadences.pending.set woken.length false)[woken.length]? = some true at hpending
      rw [List.getElem?_set] at hpending
      simp at hpending
    · have hbefore := (hothers hchain).symm.trans hpending
      rcases h.raised chain hbefore with hany | hraising | ⟨other, hother, hle⟩
      · exact .inl hany
      · exact .inr (.inl hraising)
      · cases htick.symm.trans hother
        refine .inr (.inr ⟨_, rfl, ?_⟩)
        rw [List.length_append, List.length_singleton]
        omega

theorem Kept.polling (h : world.Kept) (hpending : after.cadences.pending = world.cadences.pending)
    (hany : after.cadences.any = world.cadences.any)
    (hkinds : after.cadences.kinds = world.cadences.kinds) (hcalls : after.calls = world.calls)
    (hall : ∀ chain, world.cadences.pending[chain]? = some true → ¬world.Untaken chain)
    (howed : ∀ wake ∈ owedAfter after.history, ∃ earlier ∈ owedAfter world.history,
      earlier.call = wake.call ∧ earlier.chain = wake.chain ∧
        (world.cadences.kinds[wake.chain]? = some .wake →
          world.Underway earlier → after.Underway wake)) :
    after.Kept := by
  refine h.ticked hkinds (congrArg List.length hpending) hcalls (fun wake hmem => ?_)
    fun chain hset => ?_
  · obtain ⟨earlier, hearlier, hcall, hchain, hserved⟩ := howed wake hmem
    refine ⟨earlier, hearlier, hcall, hchain, fun point hkind hstanding => ?_⟩
    obtain ⟨call, place, begun⟩ := earlier
    cases hcall
    cases hchain
    have hflags {point : CallPoint} : world.Standing ⟨wake.call, wake.chain, begun⟩ point →
        after.Standing wake point := by
      cases point with
      | loading => exact id
      | swapping => exact id
      | raising => exact Or.imp (fun hset => hpending ▸ hset) (hserved hkind)
      | waking => exact Or.imp (fun hset => ⟨hpending ▸ hset.1, hany ▸ hset.2⟩) (hserved hkind)
      | returned => exact Or.imp (fun hset => ⟨hpending ▸ hset.1, hany ▸ hset.2⟩) (hserved hkind)
    exact hflags hstanding
  · rw [hpending] at hset
    rw [hany]
    exact (h.raised chain hset).imp_right fun hother =>
      .inl (hother.resolve_right (hall chain hset))

theorem not_untaken_of_polling {woken : List Bool} {starting running : List Nat}
    {waves : List (List Nat)} (htick : world.tick = some (.polling woken starting waves running))
    (chain : Nat) : ¬world.Untaken chain := by
  rintro ⟨other, hother, -⟩
  cases htick.symm.trans hother

theorem underway_of_polling {woken : List Bool} {starting running : List Nat}
    {waves : List (List Nat)} (htick : world.tick = some (.polling woken starting waves running))
    (wake : OwedWake) :
    world.Underway wake ↔ woken[wake.chain]? = some true ∧
      (wake.chain ∈ starting ++ waves.flatten ∨ wake.chain ∈ running ∧ wake.begun = true) := by
  unfold Underway
  rw [htick]

theorem Kept.enterPolls (h : world.Kept) {woken : List Bool}
    (htick : world.tick = some (.taking woken))
    (hlast : world.cadences.pending.length ≤ woken.length) : (world.next .enterPolls).Kept := by
  have hnext : world.next .enterPolls = { world with tick := some (.polling woken []
      (EcsBot.waves maxInFlightPolls (List.range world.cadences.kinds.length)) []) } := by
    simp only [WakeWorld.next, htick]
  have hbehind {chain : Nat} (hset : world.cadences.pending[chain]? = some true) :
      chain < woken.length := (List.getElem?_eq_some_iff.mp hset).1.trans_le hlast
  rw [hnext]
  refine h.polling rfl rfl rfl rfl (fun chain hset => ?_)
    (fun wake hmem => ⟨wake, hmem, rfl, rfl, fun hkind hserved => ?_⟩)
  · rintro ⟨other, hother, hle⟩
    cases htick.symm.trans hother
    exact absurd (hbehind hset) (Nat.not_lt.mpr hle)
  · unfold Underway at hserved
    rw [htick] at hserved
    rcases hserved with ⟨hle, hset⟩ | hwoken
    · exact absurd (hbehind hset) (Nat.not_lt.mpr hle)
    · refine ⟨hwoken, .inl ?_⟩
      rw [List.nil_append, EcsBot.flatten_waves, List.mem_range]
      exact (List.getElem?_eq_some_iff.mp hkind).1

theorem Kept.nextWave (h : world.Kept) {woken : List Bool} {wave running : List Nat}
    {waves : List (List Nat)} (htick : world.tick = some (.polling woken [] (wave :: waves) running)) :
    (world.next .nextWave).Kept := by
  have hnext : world.next .nextWave =
      { world with tick := some (.polling woken wave waves running) } := by
    simp only [WakeWorld.next, htick]
  rw [hnext]
  refine h.polling rfl rfl rfl rfl (fun chain _ => not_untaken_of_polling htick chain)
    (fun wake hmem => ⟨wake, hmem, rfl, rfl, fun _ hserved => ?_⟩)
  exact (underway_of_polling htick wake).mp hserved

theorem Kept.ended (h : world.Kept) {woken : List Bool} {starting running : List Nat}
    {waves : List (List Nat)} (htick : world.tick = some (.polling woken starting waves running))
    (hserved : ∀ chain, world.cadences.kinds[chain]? = some .wake → ¬world.Serving chain) :
    ({ world with tick := none } : WakeWorld).Kept :=
  h.polling rfl rfl rfl rfl (fun chain _ => not_untaken_of_polling htick chain)
    fun wake hmem => ⟨wake, hmem, rfl, rfl, fun hkind hunderway =>
      absurd hunderway.serving (hserved wake.chain hkind)⟩

theorem Kept.resolve (h : world.Kept) {woken : List Bool} {starting running : List Nat}
    {waves : List (List Nat)} (htick : world.tick = some (.polling woken starting waves running))
    {chain : Nat} {ending : PollEnd}
    (hheeds : ending ≠ .answered → world.cadences.kinds[chain]? ≠ some .wake) :
    (world.next (.resolve chain ending)).Kept := by
  have hnext : world.next (.resolve chain ending) =
      { world with
        tick := some (.polling woken starting waves (running.erase chain))
        history := if ending = .answered then world.history ++ [.answered chain]
          else world.history } := by
    simp only [WakeWorld.next, htick]
  rw [hnext]
  have hleft {wake : OwedWake} (hserved : world.Underway wake)
      (hother : wake.begun = true → wake.chain ≠ chain) :
      woken[wake.chain]? = some true ∧ (wake.chain ∈ starting ++ waves.flatten ∨
        wake.chain ∈ running.erase chain ∧ wake.begun = true) := by
    obtain ⟨hwoken, hplace⟩ := (underway_of_polling htick wake).mp hserved
    refine ⟨hwoken, hplace.imp_right ?_⟩
    rintro ⟨hrunning, hbegun⟩
    exact ⟨(List.mem_erase_of_ne (hother hbegun)).mpr hrunning, hbegun⟩
  refine h.polling rfl rfl rfl rfl (fun place _ => not_untaken_of_polling htick place)
    fun wake hmem => ?_
  by_cases hending : ending = .answered
  · simp only [if_pos hending, owedAfter_append] at hmem
    obtain ⟨hmem, hkept⟩ := List.mem_filter.mp hmem
    refine ⟨wake, hmem, rfl, rfl, fun _ hserved => hleft hserved ?_⟩
    intro hbegun hchain
    simp [hchain, hbegun] at hkept
  · simp only [if_neg hending] at hmem
    refine ⟨wake, hmem, rfl, rfl, fun hkind hserved => hleft hserved ?_⟩
    rintro - rfl
    exact hheeds hending hkind

theorem pollDue_flags (cadences : Cadences) (chain now : Nat) (woken : List Bool) :
    (cadences.pollDue chain now woken).2.pending = cadences.pending ∧
      (cadences.pollDue chain now woken).2.any = cadences.any := by
  unfold Cadences.pollDue
  repeat' split
  all_goals exact ⟨rfl, rfl⟩

theorem pollDue_wake {cadences : Cadences} {chain now : Nat} {woken : List Bool}
    (hkind : cadences.kinds[chain]? = some .wake) (hwoken : woken[chain]? = some true) :
    (cadences.pollDue chain now woken).1 = true := by
  unfold Cadences.pollDue
  rw [hkind]
  exact decide_eq_true hwoken

theorem Kept.startPoll (h : world.Kept) {woken : List Bool} {chain : Nat}
    {starting running : List Nat} {waves : List (List Nat)}
    (htick : world.tick = some (.polling woken (chain :: starting) waves running)) (now : Nat)
    (quiet : Bool) : (world.startPoll now quiet woken chain starting waves running).Kept := by
  obtain ⟨hpending, hany⟩ := pollDue_flags world.cadences chain now woken
  refine h.polling hpending hany (Cadences.kinds_pollDue ..) rfl
    (fun place _ => not_untaken_of_polling htick place) fun wake hmem => ?_
  -- A wake of another chain is served as before, whatever becomes of this one.
  have hother {earlier : OwedWake} (hserved : world.Underway earlier)
      (hchain : earlier.chain ≠ chain) :
      (world.startPoll now quiet woken chain starting waves running).Underway earlier := by
    obtain ⟨hwoken, hplace⟩ := (underway_of_polling htick earlier).mp hserved
    refine ⟨hwoken, ?_⟩
    rcases hplace with hplace | ⟨hrunning, hbegun⟩
    · exact .inl ((List.mem_cons.mp hplace).resolve_left hchain)
    · refine .inr ⟨?_, hbegun⟩
      split
      · exact List.mem_append_left _ hrunning
      · exact hrunning
  cases hdue : (world.cadences.pollDue chain now woken).1 with
  | false =>
    have hhistory : (world.startPoll now quiet woken chain starting waves running).history =
        world.history := by simp [WakeWorld.startPoll, hdue]
    rw [hhistory] at hmem
    refine ⟨wake, hmem, rfl, rfl, fun hkind hserved => hother hserved ?_⟩
    rintro rfl
    rw [pollDue_wake hkind ((underway_of_polling htick wake).mp hserved).1] at hdue
    cases hdue
  | true =>
    cases quiet with
    | true =>
      have hhistory : (world.startPoll now true woken chain starting waves running).history =
          world.history ++ [.begun chain] ++ [.answered chain] := by
        simp [WakeWorld.startPoll, hdue]
      rw [hhistory, owedAfter_append, owedAfter_append] at hmem
      obtain ⟨hmem, hkept⟩ := List.mem_filter.mp hmem
      obtain ⟨earlier, hearlier, rfl⟩ := List.mem_map.mp hmem
      by_cases hchain : earlier.chain = chain
      · simp [hchain] at hkept
      · rw [if_neg hchain]
        exact ⟨earlier, hearlier, rfl, rfl, fun _ hserved => hother hserved hchain⟩
    | false =>
      have hhistory : (world.startPoll now false woken chain starting waves running).history =
          world.history ++ [.begun chain] := by simp [WakeWorld.startPoll, hdue]
      rw [hhistory, owedAfter_append] at hmem
      obtain ⟨earlier, hearlier, rfl⟩ := List.mem_map.mp hmem
      by_cases hchain : earlier.chain = chain
      · rw [if_pos hchain]
        refine ⟨earlier, hearlier, rfl, rfl, fun _ hserved => ?_⟩
        refine ⟨((underway_of_polling htick earlier).mp hserved).1, .inr ⟨?_, rfl⟩⟩
        rw [hdue, hchain]
        exact List.mem_append_right _ (List.mem_singleton_self _)
      · rw [if_neg hchain]
        exact ⟨earlier, hearlier, rfl, rfl, fun _ hserved => hother hserved hchain⟩

theorem Kept.step (h : world.Kept) {step : WakeStep} (hheeds : world.Heeds step)
    (htaken : Step world step after) : after.Kept := by
  obtain ⟨henabled, rfl⟩ := htaken
  cases step with
  | call chain =>
    refine ⟨h.sizes, ?_, fun wake hmem => ?_, fun place hset => ?_⟩
    · intro call hmem
      rcases List.mem_append.mp hmem with hmem | hmem
      · exact h.handles call hmem
      · cases List.mem_singleton.mp hmem
        exact of_decide_eq_true henabled
    · obtain ⟨point, hplace, hstanding⟩ := h.owed wake hmem
      refine ⟨point, ?_, hstanding.same rfl rfl⟩
      exact (List.getElem?_append_left (List.getElem?_eq_some_iff.mp hplace).1).trans hplace
    · exact (h.raised place hset).imp_right (Or.imp (List.mem_append_left _) id)
  | turn place =>
    cases hcall : world.calls[place]? with
    | none => simp [enabled, hcall] at henabled
    | some call =>
      simp only [WakeWorld.next, hcall]
      exact h.turn hcall (hheeds call hcall)
  | park => exact ⟨h.sizes, h.handles, h.owed, h.raised⟩
  | beginTick => exact h.beginTick (Option.isNone_iff_eq_none.mp henabled)
  | takeNext =>
    simp only [enabled] at henabled
    split at henabled
    · next woken htick =>
      simp only [WakeWorld.next, htick]
      exact h.takeFlag htick
    · cases henabled
  | enterPolls =>
    simp only [enabled] at henabled
    split at henabled
    · next woken htick => exact h.enterPolls htick (of_decide_eq_true henabled)
    · cases henabled
  | startNext now quiet =>
    simp only [enabled] at henabled
    split at henabled
    · next htick =>
      simp only [WakeWorld.next, htick]
      exact h.startPoll htick now quiet
    · cases henabled
  | nextWave =>
    simp only [enabled] at henabled
    split at henabled
    · next htick => exact h.nextWave htick
    · cases henabled
  | resolve chain ending =>
    simp only [enabled] at henabled
    split at henabled
    · next htick => exact h.resolve htick hheeds
    · cases henabled
  | finish =>
    simp only [enabled] at henabled
    split at henabled
    · next woken htick =>
      refine h.ended htick fun chain _ hserving => ?_
      unfold Serving at hserving
      rw [htick] at hserving
      exact List.not_mem_nil hserving.2
    · cases henabled
  | drop =>
    simp only [enabled] at henabled
    split at henabled
    · next htick => exact h.ended htick hheeds
    · cases henabled

/-- In a run whose steps let no wake go, every wake is heard wherever the run leads. -/
theorem wakes_heard {kinds : List Cadence} {trace : List (WakeWorld × WakeStep)}
    (run : Run Step (new kinds) trace world)
    (hheeds : ∀ taken ∈ trace, taken.1.Heeds taken.2) : world.Heard :=
  (run.invariant (kept_new kinds) (fun _ _ _ h hallowed htaken => h.step hallowed htaken)
    hheeds).heard

def pollingTick (ending : PollEnd) : List WakeStep :=
  [.beginTick, .takeNext, .enterPolls, .nextWave, .startNext 0 false, .resolve 0 ending, .finish]

def wholeCall (place : Nat) : List WakeStep :=
  [.call 0, .turn place, .turn place, .turn place, .turn place]

def wokenOnce (ending : PollEnd) : List WakeStep :=
  pollingTick .answered ++ wholeCall 0 ++ pollingTick ending

theorem run_wokenOnce (ending : PollEnd) :
    Run Step (new [.wake]) (traceOf next (new [.wake]) (wokenOnce ending))
      ((wokenOnce ending).foldl next (new [.wake])) := by
  refine Run.ofEnabled next _ _ fun taken hmem => ⟨?_, rfl⟩
  cases ending <;> revert taken <;> decide

/-- A wake whose poll answers is heard. -/
theorem answered_wake_heard :
    ((wokenOnce .answered).foldl next (new [.wake])).Heard := by
  refine wakes_heard (run_wokenOnce .answered) ?_
  have hturn {world : WakeWorld} {place : Nat}
      (h : ∀ call ∈ world.calls, call.point = .raising → world.calls[place]? = some call) :
      world.Heeds (.turn place) := by
    intro call hcall hcoalesces hmem
    have hraising := congrArg WakeCall.point (Option.some.inj (hcall.symm.trans (h _ hmem rfl)))
    rcases hcoalesces.1 with hpoint | hpoint <;> cases hpoint.symm.trans hraising
  have hcalls : ∀ taken ∈ traceOf next (new [.wake]) (wokenOnce .answered),
      ∀ call ∈ taken.1.calls, call.point = .raising → taken.1.calls[0]? = some call := by decide
  rintro ⟨world, label⟩ hmem
  have hlabel := mem_traceOf hmem
  cases label with
  | turn place =>
    have hplace : place = 0 := by simpa [wokenOnce, pollingTick, wholeCall] using hlabel
    subst hplace
    exact hturn (hcalls _ hmem)
  | resolve chain ending =>
    have hending : chain = 0 ∧ ending = .answered := by
      simpa [wokenOnce, pollingTick, wholeCall] using hlabel
    exact fun hother => absurd hending.2 hother
  | drop => simp [wokenOnce, pollingTick, wholeCall] at hlabel
  | _ => trivial

/-- A source was woken and its poll failed: the wake is gone, and the world says it is idle. -/
theorem failed_poll_loses_wake :
    Run Step (new [.wake]) (traceOf next (new [.wake]) (wokenOnce .failed))
        ((wokenOnce .failed).foldl next (new [.wake])) ∧
      ¬((wokenOnce .failed).foldl next (new [.wake])).Heard := by
  refine ⟨run_wokenOnce .failed, fun h => ?_⟩
  have hanswers := h.awake (by decide) none 0 (by decide) [.begun 0, .answered 0] [.begun 0] 0 0
    (by decide) (by decide)
  obtain ⟨before, between, after, heq⟩ := hanswers
  have hlength := congrArg List.length heq
  simp only [List.length_cons, List.length_append, List.length_nil] at hlength
  omega

end WakeWorld
end LogicalWorks.Ecs
