import LogicalWorks.Politeness.Conserved
import LogicalWorks.Lib.Linked

/-! Selecting a host, admitting it and waiting for it read one predicate. -/
namespace LogicalWorks.Politeness
open Session (Text)

namespace Frontier

variable {frontier : Frontier} {host other : Text} {at_ : Nat}

def Recorded (frontier : Frontier) (host : Text) : Prop :=
  (frontier.resolutions.get host).isSome = true

def Admits (frontier : Frontier) (host : Text) (at_ : Nat) : Prop :=
  ∃ permit, (frontier.admit_ host at_).1 = .admit_ permit

def Defers (frontier : Frontier) (host : Text) (at_ : Nat) (kind : DeferralKind) : Prop :=
  ∃ resumeAt key, (frontier.admit_ host at_).1 = .defer resumeAt kind key

def Rejects (frontier : Frontier) (host : Text) (at_ : Nat) : Prop :=
  ∃ kind, (frontier.admit_ host at_).1 = .reject kind

theorem mem_hosts : host ∈ frontier.hosts ↔ frontier.Recorded host := by
  simp only [hosts, List.mem_insertionSort]
  exact Table.mem_keys

theorem hosts_sorted (frontier : Frontier) : frontier.hosts.Pairwise (· ≤ ·) :=
  List.pairwise_insertionSort _ _

theorem admits_iff (hordinal : frontier.nextOrdinal + 1 ≤ u64Max) :
    frontier.Admits host at_ ↔ frontier.decide_ host at_ = .admit_ := by
  unfold Admits admit_ reserve
  cases frontier.decide_ host at_ <;> simp [Verdict.refusal, hordinal]

theorem defers_iff (hordinal : frontier.nextOrdinal + 1 ≤ u64Max) {kind : DeferralKind} :
    frontier.Defers host at_ kind ↔
      ∃ resumeAt key, frontier.decide_ host at_ = .defer resumeAt kind key := by
  unfold Defers admit_ reserve
  cases frontier.decide_ host at_ <;> simp [Verdict.refusal, hordinal]

theorem rejects_iff (hordinal : frontier.nextOrdinal + 1 ≤ u64Max) :
    frontier.Rejects host at_ ↔ ∃ kind, frontier.decide_ host at_ = .reject kind := by
  unfold Rejects admit_ reserve
  cases frontier.decide_ host at_ <;> simp [Verdict.refusal, hordinal]

theorem prerequisite_eq_some {kind : DeferralKind} :
    (frontier.decide_ host at_).prerequisite = some kind ↔
      (∃ resumeAt key, frontier.decide_ host at_ = .defer resumeAt kind key) ∧
        kind.needsPrerequisite = true := by
  cases frontier.decide_ host at_ with
  | admit_ => simp [Verdict.prerequisite]
  | reject kind => simp [Verdict.prerequisite]
  | defer resumeAt held key =>
    simp only [Verdict.prerequisite, Verdict.defer.injEq, exists_and_left, exists_eq', exists_eq_left',
      and_true, true_and]
    split
    · rename_i hneeds
      constructor
      · intro heq
        cases heq
        simp [hneeds]
      · intro h
        simp [h.1]
    · rename_i hneeds
      constructor
      · nofun
      · rintro ⟨heq, hkind⟩
        exact absurd (by simpa [heq] using hkind) hneeds

theorem decide_mono {late : Nat} (h : at_ ≤ late) (hadmit_ : frontier.decide_ host at_ = .admit_) :
    frontier.decide_ host late = .admit_ := by
  obtain ⟨habandoned, hresolved, hrules, hroom⟩ := decide_eq_admit.mp hadmit_
  refine decide_eq_admit.mpr ⟨habandoned, hresolved, ?_, fun key hmem => ?_⟩
  · rw [effectiveRules_eq] at *
    exact RulesState.permits_mono h hrules
  · obtain ⟨hblocked, hlt⟩ := saturated_eq_none.mp (hroom key hmem)
    exact saturated_eq_none.mpr ⟨hblocked.trans h, hlt⟩

/-- Nothing but a new resolution or new rules brings the host back. -/
def Dead (frontier : Frontier) (host : Text) : Prop :=
  host ∈ frontier.abandons ∨ frontier.resolutions.get host = some .doesNotExist ∨
    ∃ rule, (frontier.entry (.host host)).rules = .disallowed rule

theorem dead_of_reject {kind : RejectKind} (h : frontier.decide_ host at_ = .reject kind) :
    frontier.Dead host := by
  unfold decide_ at h
  split at h
  · rename_i habandoned
    exact .inl (by simpa using habandoned)
  · split at h
    · cases h
    · cases h
    · rename_i hresolved
      exact .inr (.inl hresolved)
    · split at h
      · rename_i rule hrules
        refine .inr (.inr ⟨rule, ?_⟩)
        rw [effectiveRules_eq] at hrules
        cases hstored : (frontier.entry (.host host)).rules with
        | unreachable since =>
          rw [hstored] at hrules
          simp only [RulesState.effective] at hrules
          split at hrules <;> cases hrules
        | notFetched => rw [hstored] at hrules; cases hrules
        | allowed => rw [hstored] at hrules; cases hrules
        | noRules => rw [hstored] at hrules; cases hrules
        | disallowed stored =>
          rw [hstored] at hrules
          exact hrules
      · cases h
      · cases h
      all_goals
        cases hbinding : frontier.binding (frontier.keysFor host) at_ with
        | none =>
          rw [hbinding] at h
          cases h
        | some verdict =>
          obtain ⟨resumeAt, key, rfl⟩ := binding_isWait hbinding
          rw [hbinding] at h
          cases h

theorem Dead.decide_ne (h : frontier.Dead host) (at_ : Nat) : frontier.decide_ host at_ ≠ .admit_ := by
  intro hadmit_
  obtain ⟨habandoned, ⟨origin, hresolved⟩, hrules, -⟩ := decide_eq_admit.mp hadmit_
  rcases h with h | h | ⟨rule, h⟩
  · exact habandoned h
  · rw [hresolved] at h
    cases h
  · rw [effectiveRules_eq, h] at hrules
    cases hrules

theorem Dead.updateAll (h : frontier.Dead host) {keys : List ConstraintKey}
    (change : KeyState → KeyState) (hnodup : keys.Nodup)
    (hrules : ∀ entry rule, entry.rules = .disallowed rule → (change entry).rules = .disallowed rule) :
    (frontier.updateAll keys change).Dead host := by
  unfold Dead
  rw [updateAll_abandons, updateAll_resolutions]
  rcases h with h | h | ⟨rule, h⟩
  · exact .inl h
  · exact .inr (.inl h)
  · refine .inr (.inr ⟨rule, ?_⟩)
    rw [entry_updateAll hnodup]
    split
    · exact hrules _ rule h
    · exact h

theorem Dead.promoteRules (h : frontier.Dead host) (key : ConstraintKey) (at_ : Nat) :
    (frontier.promoteRules key at_).Dead host := by
  rcases h with h | h | ⟨rule, h⟩
  · exact .inl h
  · exact .inr (.inl h)
  · refine .inr (.inr ⟨rule, ?_⟩)
    unfold Frontier.promoteRules
    rw [entry_update]
    split
    · rename_i heq
      subst heq
      simp [KeyState.promote, h, RulesState.effective]
    · exact h

/-- What the predicate reads: two frontiers that agree on it come to one verdict. -/
theorem decide_congr {left right : Frontier} (hpolicy : left.policy = right.policy)
    (habandons : left.abandons = right.abandons)
    (hresolved : left.resolutions.get host = right.resolutions.get host)
    (hkeys : left.keysFor host = right.keysFor host)
    (hrules : (left.entry (.host host)).rules = (right.entry (.host host)).rules)
    (hroom : ∀ key ∈ right.keysFor host,
      (left.entry key).blockedUntil = (right.entry key).blockedUntil ∧
        (left.entry key).window = (right.entry key).window ∧
        (left.entry key).inFlight = (right.entry key).inFlight) (at_ : Nat) :
    left.decide_ host at_ = right.decide_ host at_ := by
  have hbinding : left.binding (left.keysFor host) at_ = right.binding (right.keysFor host) at_ := by
    rw [hkeys]
    unfold binding
    refine List.foldl_ext _ _ _ fun held key hmem => ?_
    obtain ⟨hblocked, hwindow, hslots⟩ := hroom key hmem
    unfold weigh
    rw [saturated_eq, saturated_eq, hblocked, hwindow, hslots]
  unfold decide_
  rw [effectiveRules_eq, effectiveRules_eq, hpolicy, habandons, hresolved, hrules, hbinding]

def sharedKeys (frontier : Frontier) (host other : Text) : List ConstraintKey :=
  (frontier.keysFor host).filter (frontier.keysFor other).contains

end Frontier

open Frontier (Recorded Admits Defers Rejects Dead)

variable {policy : PolitenessPolicy} {egress : Text} {issuer : Nat} {world : World}
  {host other : Text} {at_ : Nat}

def Op.About (host : Text) (op : Op) : Prop :=
  (∃ resolved, op = .observeResolution host resolved) ∨
    ∃ rules, op = .observeRules (.host host) rules

theorem Accounted.dead_step (h : Accounted policy egress issuer world) {op : Op} {next : World}
    (hdead : world.frontier.Dead host) (habout : ¬op.About host) (taken : world.Step op next) :
    next.frontier.Dead host := by
  obtain ⟨hretry, hcomplete, rfl⟩ := taken
  cases op with
  | observeResolution named resolved =>
    have hne : host ≠ named := by
      rintro rfl
      exact habout (.inl ⟨resolved, rfl⟩)
    rcases hdead with hdead | hdead | hdead
    · exact .inl hdead
    · refine .inr (.inl ?_)
      exact (Table.get_insert_of_ne _ _ hne).trans hdead
    · exact .inr (.inr hdead)
  | observeRules key rules =>
    have hne : ConstraintKey.host host ≠ key := by
      rintro rfl
      exact habout (.inr ⟨rules, rfl⟩)
    rcases hdead with hdead | hdead | ⟨rule, hdead⟩
    · exact .inl hdead
    · exact .inr (.inl hdead)
    · refine .inr (.inr ⟨rule, ?_⟩)
      simp only [World.act, Frontier.observeRules, Frontier.entry_update, if_neg hne, hdead]
  | observeRetryAfter permit at_ delay =>
    simp only [World.act]
    cases hrun : world.frontier.observeRetryAfter permit at_ delay with
    | error refusal => exact hdead
    | ok frontier =>
      obtain ⟨hverify, rfl⟩ := Frontier.observeRetryAfter_eq_ok.mp hrun
      have hmem := h.mem_live (hretry permit at_ delay rfl) hverify
      refine hdead.updateAll _ (h.issued permit hmem).2.1.serverKeys_nodup ?_
      intro entry rule hrule
      unfold KeyState.block
      split <;> exact hrule
  | admit_ named at_ =>
    simp only [World.act]
    cases hrun : world.frontier.admit_ named at_ with
    | mk admission frontier =>
      cases admission with
      | admit_ permit =>
        obtain ⟨-, -, -, rfl⟩ := Frontier.admit_eq.mp hrun
        have htaken := (hdead.promoteRules (.host named) at_).updateAll KeyState.take
          (h.permitFor_wellKeyed named).keys_nodup fun _ _ hrule => hrule
        exact htaken
      | defer resumeAt kind key =>
        have hsame : (world.frontier.admit_ named at_).2 = world.frontier :=
          Frontier.admit_snd_of_ne (by simp [hrun])
        rw [hrun] at hsame
        subst hsame
        exact hdead
      | reject kind =>
        have hsame : (world.frontier.admit_ named at_).2 = world.frontier :=
          Frontier.admit_snd_of_ne (by simp [hrun])
        rw [hrun] at hsame
        subst hsame
        exact hdead
  | complete permit outcome =>
    simp only [World.act]
    cases hrun : world.frontier.complete permit outcome with
    | error refusal => exact hdead
    | ok frontier =>
      obtain ⟨hverify, rfl⟩ := Frontier.complete_eq_ok.mp hrun
      have hmem := h.mem_live (hcomplete permit outcome rfl) hverify
      obtain ⟨-, hkeyed, -⟩ := h.issued permit hmem
      have hreleased : Dead { world.frontier with
          reservations := world.frontier.reservations.erase permit.ordinal } host := hdead
      have hgiven := hreleased.updateAll KeyState.release hkeyed.keys_nodup
        fun _ _ hrule => hrule
      refine hgiven.updateAll _ hkeyed.serverKeys_nodup fun entry rule hrule => ?_
      cases outcome with
      | cacheHit => exact hrule
      | failure => exact hrule
      | success =>
        simp only [KeyState.settle]
        split <;> exact hrule
  | abandon named =>
    rcases hdead with hdead | hdead | hdead
    · exact .inl (List.mem_cons_of_mem _ hdead)
    · exact .inr (.inl hdead)
    · exact .inr (.inr hdead)

theorem Accounted.dead_run (h : Accounted policy egress issuer world) {trace : List (World × Op)}
    {later : World} (run : Run World.Step world trace later) (hdead : world.frontier.Dead host)
    (hquiet : ∀ taken ∈ trace, ¬taken.2.About host) : later.frontier.Dead host := by
  have hboth : Accounted policy egress issuer later ∧ later.frontier.Dead host := by
    refine @Run.invariant _ _ _ _ _ _ (fun state => Accounted policy egress issuer state ∧
      state.frontier.Dead host) (fun _ op => ¬op.About host) run ⟨h, hdead⟩ ?_ hquiet
    rintro state op next ⟨hstate, hhost⟩ hop taken
    exact ⟨hstate.step taken, hstate.dead_step hhost hop taken⟩
  exact hboth.2

/-- A reservation changes another host's verdict by the slots it took on the keys they share, and
by nothing else. -/
theorem Accounted.decide_reserved (h : Accounted policy egress issuer world) (at_ : Nat)
    (hne : other ≠ host) (late : Nat) :
    (world.frontier.reserved host at_).decide_ other late =
      (world.frontier.updateAll (world.frontier.sharedKeys host other) KeyState.take).decide_ other
        late := by
  have hnodup : (world.frontier.keysFor host).Nodup := (h.permitFor_wellKeyed host).keys_nodup
  have hshared : (world.frontier.sharedKeys host other).Nodup := hnodup.filter _
  have hentry : ∀ key, key ≠ .host host → key ∈ world.frontier.keysFor other →
      (world.frontier.reserved host at_).entry key =
        (world.frontier.updateAll (world.frontier.sharedKeys host other) KeyState.take).entry key := by
    intro key hkey hmem
    have hpromoted : (world.frontier.promoteRules (.host host) at_).entry key =
        world.frontier.entry key := by
      unfold Frontier.promoteRules
      rw [Frontier.entry_update, if_neg hkey]
    have htaken : (world.frontier.reserved host at_).entry key =
        ((world.frontier.promoteRules (.host host) at_).updateAll (world.frontier.keysFor host)
          KeyState.take).entry key := rfl
    rw [htaken, Frontier.entry_updateAll hnodup, Frontier.entry_updateAll hshared, hpromoted]
    simp [Frontier.sharedKeys, hmem]
  have hself : ConstraintKey.host other ≠ .host host := fun heq => hne (ConstraintKey.host.inj heq)
  have hkeys : (world.frontier.updateAll (world.frontier.sharedKeys host other)
      KeyState.take).keysFor other = world.frontier.keysFor other := by simp [Frontier.keysFor]
  refine Frontier.decide_congr ?_ ?_ ?_ ?_ ?_ ?_ late
  · simp [Frontier.reserved, Frontier.promoteRules, Frontier.update]
  · simp [Frontier.reserved, Frontier.promoteRules, Frontier.update]
  · simp [Frontier.reserved, Frontier.promoteRules, Frontier.update]
  · simp [Frontier.reserved, Frontier.promoteRules, Frontier.update, Frontier.keysFor]
  · rw [hentry _ hself (List.mem_cons_self)]
  · intro key hmem
    rw [hkeys] at hmem
    have hkey : key ≠ .host host := by
      rintro rfl
      unfold Frontier.keysFor at hmem
      rw [h.egress_eq, List.mem_append, List.mem_cons, List.mem_singleton] at hmem
      rcases hmem with (heq | hmem) | heq
      · exact hself heq.symm
      · obtain ⟨origin, heq⟩ := h.origins other _ (Option.mem_toList.mp hmem)
        cases heq
      · cases heq
    rw [hentry key hkey hmem]
    exact ⟨rfl, rfl, rfl⟩

theorem Frontier.nextAdmissible_eq {frontier : Frontier}
    (hordinal : frontier.nextOrdinal + 1 ≤ u64Max) (at_ : Nat) (host : Text) :
    frontier.nextAdmissible at_ = some host ↔ frontier.Recorded host ∧ frontier.Admits host at_ ∧
      ∀ other, frontier.Recorded other → frontier.Admits other at_ → host ≤ other := by
  unfold Frontier.nextAdmissible
  rw [find_sorted frontier.hosts_sorted]
  simp only [decide_eq_true_eq, Frontier.mem_hosts, Frontier.admits_iff hordinal]

theorem Frontier.nextAdmissible_eq_none {frontier : Frontier}
    (hordinal : frontier.nextOrdinal + 1 ≤ u64Max) (at_ : Nat) :
    frontier.nextAdmissible at_ = none ↔ ∀ host, frontier.Recorded host →
      (∃ kind, frontier.Defers host at_ kind) ∨ frontier.Rejects host at_ := by
  unfold Frontier.nextAdmissible
  simp only [List.find?_eq_none, decide_eq_true_eq, Frontier.mem_hosts,
    Frontier.defers_iff hordinal, Frontier.rejects_iff hordinal]
  refine forall₂_congr fun host _ => ?_
  cases frontier.decide_ host at_ <;> simp

theorem Frontier.nextPrerequisite_eq {frontier : Frontier}
    (hordinal : frontier.nextOrdinal + 1 ≤ u64Max) (at_ : Nat) (host : Text) (kind : DeferralKind) :
    frontier.nextPrerequisite at_ = some (host, kind) ↔ frontier.Recorded host ∧
      frontier.Defers host at_ kind ∧ kind.needsPrerequisite = true ∧
        ∀ other held, frontier.Recorded other → frontier.Defers other at_ held →
          held.needsPrerequisite = true → host ≤ other := by
  unfold Frontier.nextPrerequisite
  rw [findSome_sorted frontier.hosts_sorted]
  simp only [Option.map_eq_some_iff, Frontier.prerequisite_eq_some, Frontier.mem_hosts,
    Prod.mk.injEq, Frontier.defers_iff hordinal, Option.isSome_map]
  constructor
  · rintro ⟨item, hrecorded, ⟨found, hheld, rfl, rfl⟩, hleast⟩
    refine ⟨hrecorded, hheld.1, hheld.2, fun other held hother hdefers hneeds => ?_⟩
    refine hleast other hother ?_
    rw [Frontier.prerequisite_eq_some.mpr ⟨hdefers, hneeds⟩]
    rfl
  · rintro ⟨hrecorded, hdefers, hneeds, hleast⟩
    refine ⟨host, hrecorded, ⟨kind, ⟨hdefers, hneeds⟩, rfl, rfl⟩, fun other hother hsome => ?_⟩
    obtain ⟨held, hheld⟩ := Option.isSome_iff_exists.mp hsome
    obtain ⟨hdefers, hneeds⟩ := Frontier.prerequisite_eq_some.mp hheld
    exact hleast other held hother hdefers hneeds

theorem Frontier.nextPrerequisite_eq_none {frontier : Frontier}
    (hordinal : frontier.nextOrdinal + 1 ≤ u64Max) (at_ : Nat) :
    frontier.nextPrerequisite at_ = none ↔ ∀ host kind, frontier.Recorded host →
      frontier.Defers host at_ kind → kind.needsPrerequisite = false := by
  unfold Frontier.nextPrerequisite
  simp only [List.findSome?_eq_none_iff, Option.map_eq_none_iff, Frontier.mem_hosts,
    Frontier.defers_iff hordinal]
  constructor
  · intro h host kind hrecorded hdefers
    rw [← Bool.not_eq_true]
    intro hneeds
    have hnone := h host hrecorded
    rw [Frontier.prerequisite_eq_some.mpr ⟨hdefers, hneeds⟩] at hnone
    cases hnone
  · intro h host hrecorded
    rw [Option.eq_none_iff_forall_ne_some]
    intro kind hkind
    obtain ⟨hdefers, hneeds⟩ := Frontier.prerequisite_eq_some.mp hkind
    rw [h host kind hrecorded hdefers] at hneeds
    cases hneeds

end LogicalWorks.Politeness
