import LogicalWorks.Politeness.Gate
import LogicalWorks.Lib.Run

/-! Whatever the topology does, a reservation gives back exactly what it took. -/
namespace LogicalWorks.Politeness
open Session (Text)
open Ecs (saturatingAdd)

structure World where
  frontier : Frontier
  live : List InFlightPermit
  settled : List InFlightPermit

inductive Op where
  | observeResolution (host : Text) (resolved : Resolved)
  | observeRules (key : ConstraintKey) (rules : RulesState)
  | observeRetryAfter (permit : InFlightPermit) (at_ delay : Nat)
  | admit_ (host : Text) (at_ : Nat)
  | complete (permit : InFlightPermit) (outcome : Outcome)
  | abandon (host : Text)

namespace World

def new (policy : PolitenessPolicy) (egress : Text) (issuer : Nat) : World :=
  ⟨.new policy egress issuer, [], []⟩

def granted (world : World) : Admission × Frontier → World
  | (.admit_ permit, frontier) => ⟨frontier, permit :: world.live, world.settled⟩
  | (_, frontier) => { world with frontier }

def act (world : World) : Op → World
  | .observeResolution host resolved =>
    { world with frontier := world.frontier.observeResolution host resolved }
  | .observeRules key rules => { world with frontier := world.frontier.observeRules key rules }
  | .observeRetryAfter permit at_ delay =>
    match world.frontier.observeRetryAfter permit at_ delay with
    | .ok frontier => { world with frontier }
    | .error _ => world
  | .admit_ host at_ => world.granted (world.frontier.admit_ host at_)
  | .complete permit outcome =>
    match world.frontier.complete permit outcome with
    | .ok frontier => ⟨frontier, world.live.erase permit, permit :: world.settled⟩
    | .error _ => world
  | .abandon host => { world with frontier := world.frontier.abandon host }

def Known (world : World) (permit : InFlightPermit) : Prop :=
  permit.issuer = world.frontier.issuer → permit ∈ world.live ∨ permit ∈ world.settled

def Step (world : World) (op : Op) (next : World) : Prop :=
  (∀ permit at_ delay, op = .observeRetryAfter permit at_ delay → world.Known permit) ∧
    (∀ permit outcome, op = .complete permit outcome → world.Known permit) ∧ world.act op = next

end World

def InFlightPermit.WellKeyed (permit : InFlightPermit) : Prop :=
  (∀ key, permit.origin = some key → ∃ origin, key = .origin origin) ∧
    ∃ egress, permit.egress = .egress egress

theorem InFlightPermit.WellKeyed.keys_nodup {permit : InFlightPermit} (h : permit.WellKeyed) :
    permit.keys.Nodup := by
  obtain ⟨horigin, egress, hegress⟩ := h
  unfold keys serverKeys
  rw [hegress]
  cases hkey : permit.origin with
  | none => simp
  | some key =>
    obtain ⟨origin, rfl⟩ := horigin key hkey
    simp

theorem InFlightPermit.WellKeyed.isServer {permit : InFlightPermit} (h : permit.WellKeyed)
    {key : ConstraintKey} (hmem : key ∈ permit.serverKeys) : key.isServer = true := by
  unfold serverKeys at hmem
  cases hkey : permit.origin with
  | none =>
    simp only [hkey, Option.toList_none, List.mem_singleton] at hmem
    rw [hmem]
    rfl
  | some named =>
    obtain ⟨origin, rfl⟩ := h.1 named hkey
    simp only [hkey, Option.toList_some, List.mem_cons, List.not_mem_nil, or_false] at hmem
    rcases hmem with rfl | rfl <;> rfl

theorem InFlightPermit.WellKeyed.serverKeys_nodup {permit : InFlightPermit} (h : permit.WellKeyed) :
    permit.serverKeys.Nodup := h.keys_nodup.sublist (List.sublist_append_left _ _)

/-- What the counters say is what the permits that are still out hold. -/
structure Accounted (policy : PolitenessPolicy) (egress : Text) (issuer : Nat) (world : World) :
    Prop where
  policy_eq : world.frontier.policy = policy
  egress_eq : world.frontier.egress = .egress egress
  issuer_eq : world.frontier.issuer = issuer
  origins : ∀ host key, world.frontier.constraints.get host = some key →
    ∃ origin, key = .origin origin
  issued : ∀ permit ∈ world.live, permit.issuer = issuer ∧ permit.WellKeyed ∧
    permit.ordinal < world.frontier.nextOrdinal
  distinct : (world.live.map InFlightPermit.ordinal).Nodup
  ledger : world.frontier.reservations = (world.live.map InFlightPermit.ordinal).toFinset
  spent : ∀ permit ∈ world.settled, permit.ordinal ∉ world.frontier.reservations ∧
    permit.ordinal < world.frontier.nextOrdinal
  counted : ∀ key, (world.frontier.entry key).inFlight =
    (world.live.filter fun permit => permit.holds key).length
  windows : ∀ key, key.isServer = true → policy.Allows (world.frontier.entry key).window
  egress_window : (world.frontier.entry (.egress egress)).window = policy.egressWindow

namespace Accounted

variable {policy : PolitenessPolicy} {egress : Text} {issuer : Nat} {world : World}

theorem new (policy : PolitenessPolicy) (egress : Text) (issuer : Nat) :
    Accounted policy egress issuer (.new policy egress issuer) := by
  have hentry : ∀ key, (World.new policy egress issuer).frontier.entry key =
      if key = .egress egress then ⟨policy.egressWindow, 0, 0, 0, .notFetched⟩
      else ⟨policy.minWindow, 0, 0, 0, .notFetched⟩ := by
    intro key
    exact Frontier.entry_update _ _ _ _
  constructor
  case counted =>
    intro key
    rw [hentry]
    split <;> rfl
  case windows =>
    intro key hserver
    rw [hentry, if_neg (by rintro rfl; cases hserver)]
    exact policy.allows_min
  case egress_window => rw [hentry, if_pos rfl]
  all_goals simp [World.new, Frontier.new, Frontier.update]

theorem keep {frontier : Frontier} (h : Accounted policy egress issuer world)
    (hpolicy : frontier.policy = world.frontier.policy)
    (hegress : frontier.egress = world.frontier.egress)
    (hissuer : frontier.issuer = world.frontier.issuer)
    (horigins : ∀ host key, frontier.constraints.get host = some key →
      ∃ origin, key = .origin origin)
    (hreservations : frontier.reservations = world.frontier.reservations)
    (hordinal : frontier.nextOrdinal = world.frontier.nextOrdinal)
    (hentry : ∀ key, (frontier.entry key).inFlight = (world.frontier.entry key).inFlight ∧
      (frontier.entry key).window = (world.frontier.entry key).window) :
    Accounted policy egress issuer { world with frontier } where
  policy_eq := hpolicy.trans h.policy_eq
  egress_eq := hegress.trans h.egress_eq
  issuer_eq := hissuer.trans h.issuer_eq
  origins := horigins
  issued := by
    simp only [hordinal]
    exact h.issued
  distinct := h.distinct
  ledger := hreservations.trans h.ledger
  spent := by
    simp only [hreservations, hordinal]
    exact h.spent
  counted := fun key => (hentry key).1.trans (h.counted key)
  windows := by
    intro key hserver
    simp only [(hentry key).2]
    exact h.windows key hserver
  egress_window := (hentry _).2.trans h.egress_window

theorem observeResolution (h : Accounted policy egress issuer world) (host : Text)
    (resolved : Resolved) :
    Accounted policy egress issuer (world.act (.observeResolution host resolved)) := by
  refine h.keep rfl rfl rfl ?_ rfl rfl fun key => ⟨rfl, rfl⟩
  intro asked key hkey
  unfold Frontier.observeResolution at hkey
  cases resolved with
  | origin origin =>
    simp only [Index.get_insert] at hkey
    split at hkey
    · exact ⟨origin, (Option.some.inj hkey).symm⟩
    · exact h.origins asked key hkey
  | failed =>
    simp only [Index.get_erase] at hkey
    split at hkey
    · cases hkey
    · exact h.origins asked key hkey
  | doesNotExist =>
    simp only [Index.get_erase] at hkey
    split at hkey
    · cases hkey
    · exact h.origins asked key hkey

theorem observeRules (h : Accounted policy egress issuer world) (key : ConstraintKey)
    (rules : RulesState) : Accounted policy egress issuer (world.act (.observeRules key rules)) := by
  refine h.keep rfl rfl rfl h.origins rfl rfl fun asked => ?_
  unfold Frontier.observeRules
  rw [Frontier.entry_update]
  split
  · rename_i heq
    subst heq
    exact ⟨rfl, rfl⟩
  · exact ⟨rfl, rfl⟩

theorem abandon (h : Accounted policy egress issuer world) (host : Text) :
    Accounted policy egress issuer (world.act (.abandon host)) :=
  h.keep rfl rfl rfl h.origins rfl rfl fun _ => ⟨rfl, rfl⟩

theorem mem_live (h : Accounted policy egress issuer world) {permit : InFlightPermit}
    (hknown : world.Known permit) (hverify : world.frontier.verify permit = .ok ()) :
    permit ∈ world.live := by
  obtain ⟨hissuer, hmem⟩ := Frontier.verify_eq_ok.mp hverify
  exact (hknown hissuer).resolve_right fun hsettled => (h.spent permit hsettled).1 hmem

theorem observeRetryAfter (h : Accounted policy egress issuer world) {permit : InFlightPermit}
    (hknown : world.Known permit) (at_ delay : Nat) :
    Accounted policy egress issuer (world.act (.observeRetryAfter permit at_ delay)) := by
  simp only [World.act]
  cases hrun : world.frontier.observeRetryAfter permit at_ delay with
  | error refusal => exact h
  | ok frontier =>
    obtain ⟨hverify, rfl⟩ := Frontier.observeRetryAfter_eq_ok.mp hrun
    obtain ⟨-, hkeyed, -⟩ := h.issued permit (h.mem_live hknown hverify)
    refine h.keep (by simp) (by simp) (by simp) (by simpa using h.origins) (by simp) (by simp)
      fun key => ?_
    rw [Frontier.entry_updateAll hkeyed.serverKeys_nodup]
    split
    · unfold KeyState.block
      split <;> exact ⟨rfl, rfl⟩
    · exact ⟨rfl, rfl⟩

theorem room (h : Accounted policy egress issuer world) {host : Text} {at_ : Nat}
    (hadmit_ : world.frontier.decide_ host at_ = .admit_) {key : ConstraintKey}
    (hmem : key ∈ world.frontier.keysFor host) :
    (world.frontier.entry key).inFlight < (world.frontier.entry key).window ∧
      (world.frontier.entry key).window ≤ u32Max := by
  obtain ⟨-, -, -, hroom⟩ := Frontier.decide_eq_admit.mp hadmit_
  have hlt := (Frontier.saturated_eq_none.mp (hroom key hmem)).2
  refine ⟨hlt, ?_⟩
  cases hserver : key.isServer with
  | true => exact (h.windows key hserver).2.trans policy.max_le
  | false =>
    have hegress : key = .egress egress := by
      unfold Frontier.keysFor at hmem
      rw [h.egress_eq, List.mem_append, List.mem_cons, List.mem_singleton] at hmem
      rcases hmem with (rfl | hmem) | rfl
      · cases hserver
      · obtain ⟨origin, rfl⟩ := h.origins host key (Option.mem_toList.mp hmem)
        cases hserver
      · rfl
    rw [hegress, h.egress_window]
    exact policy.egress_le_max.trans policy.max_le

theorem permitFor_wellKeyed (h : Accounted policy egress issuer world) (host : Text) :
    (world.frontier.permitFor host).WellKeyed :=
  ⟨h.origins host, egress, h.egress_eq⟩

theorem entry_reserved (h : Accounted policy egress issuer world) {host : Text} {at_ : Nat}
    (hadmit_ : world.frontier.decide_ host at_ = .admit_) (key : ConstraintKey) :
    ((world.frontier.reserved host at_).entry key).inFlight =
        (world.frontier.entry key).inFlight +
          (if key ∈ world.frontier.keysFor host then 1 else 0) ∧
      ((world.frontier.reserved host at_).entry key).window = (world.frontier.entry key).window := by
  have hnodup : (world.frontier.keysFor host).Nodup := (h.permitFor_wellKeyed host).keys_nodup
  have hpromoted : ((world.frontier.promoteRules (.host host) at_).entry key).inFlight =
        (world.frontier.entry key).inFlight ∧
      ((world.frontier.promoteRules (.host host) at_).entry key).window =
        (world.frontier.entry key).window := by
    unfold Frontier.promoteRules
    rw [Frontier.entry_update]
    split
    · rename_i heq
      subst heq
      exact ⟨rfl, rfl⟩
    · exact ⟨rfl, rfl⟩
  have hentry : (world.frontier.reserved host at_).entry key =
      ((world.frontier.promoteRules (.host host) at_).updateAll (world.frontier.keysFor host)
        KeyState.take).entry key := rfl
  rw [hentry, Frontier.entry_updateAll hnodup]
  by_cases hmem : key ∈ world.frontier.keysFor host
  · obtain ⟨hlt, hle⟩ := h.room hadmit_ hmem
    simp only [hmem, if_true]
    refine ⟨?_, hpromoted.2⟩
    change min (_ + 1) u32Max = _
    rw [hpromoted.1]
    omega
  · simp [hmem, hpromoted]

theorem admit_ (h : Accounted policy egress issuer world) (host : Text) (at_ : Nat) :
    Accounted policy egress issuer (world.act (.admit_ host at_)) := by
  simp only [World.act]
  cases hrun : world.frontier.admit_ host at_ with
  | mk admission frontier =>
    cases admission with
    | defer resumeAt kind key =>
      have hsame : (world.frontier.admit_ host at_).2 = world.frontier :=
        Frontier.admit_snd_of_ne (by simp [hrun])
      rw [hrun] at hsame
      subst hsame
      exact h
    | reject kind =>
      have hsame : (world.frontier.admit_ host at_).2 = world.frontier :=
        Frontier.admit_snd_of_ne (by simp [hrun])
      rw [hrun] at hsame
      subst hsame
      exact h
    | admit_ permit =>
      obtain ⟨hverdict, -, rfl, rfl⟩ := Frontier.admit_eq.mp hrun
      have hkeyed := h.permitFor_wellKeyed host
      have hentry := h.entry_reserved hverdict
      have hfresh : world.frontier.nextOrdinal ∉ world.live.map InFlightPermit.ordinal := by
        intro hmem
        obtain ⟨permit, hlive, heq⟩ := List.mem_map.mp hmem
        exact absurd (h.issued permit hlive).2.2 (by omega)
      constructor
      case policy_eq => simpa [World.granted, Frontier.reserved, Frontier.promoteRules, Frontier.update]
        using h.policy_eq
      case egress_eq => simpa [World.granted, Frontier.reserved, Frontier.promoteRules, Frontier.update]
        using h.egress_eq
      case issuer_eq => simpa [World.granted, Frontier.reserved, Frontier.promoteRules, Frontier.update]
        using h.issuer_eq
      case origins => simpa [World.granted, Frontier.reserved, Frontier.promoteRules, Frontier.update]
        using h.origins
      case issued =>
        intro permit hmem
        rcases List.mem_cons.mp hmem with rfl | hmem
        · exact ⟨h.issuer_eq, hkeyed, Nat.lt_succ_self _⟩
        · obtain ⟨hissuer, hwell, hlt⟩ := h.issued permit hmem
          exact ⟨hissuer, hwell, Nat.lt_succ_of_lt hlt⟩
      case distinct => exact List.nodup_cons.mpr ⟨hfresh, h.distinct⟩
      case ledger =>
        change insert world.frontier.nextOrdinal world.frontier.reservations = _
        rw [h.ledger]
        simp [World.granted, Frontier.permitFor]
      case spent =>
        intro permit hmem
        obtain ⟨hnotin, hlt⟩ := h.spent permit hmem
        refine ⟨?_, Nat.lt_succ_of_lt hlt⟩
        change permit.ordinal ∉ insert world.frontier.nextOrdinal world.frontier.reservations
        rw [Finset.mem_insert, not_or]
        exact ⟨by omega, hnotin⟩
      case counted =>
        intro key
        have hcount := h.counted key
        have hholds : (world.frontier.permitFor host).holds key = true ↔
            key ∈ world.frontier.keysFor host := by
          simp [InFlightPermit.holds]
          rfl
        change ((world.frontier.reserved host at_).entry key).inFlight = _
        rw [(hentry key).1]
        simp only [World.granted, List.filter_cons, hholds]
        split
        · simp only [List.length_cons]
          omega
        · omega
      case windows =>
        intro key hserver
        change policy.Allows ((world.frontier.reserved host at_).entry key).window
        rw [(hentry key).2]
        exact h.windows key hserver
      case egress_window =>
        change ((world.frontier.reserved host at_).entry (.egress egress)).window = _
        rw [(hentry _).2]
        exact h.egress_window

theorem ordinal_injective (h : Accounted policy egress issuer world) {permit other : InFlightPermit}
    (hpermit : permit ∈ world.live) (hother : other ∈ world.live)
    (heq : other.ordinal = permit.ordinal) : other = permit :=
  List.inj_on_of_nodup_map h.distinct hother hpermit heq

theorem entry_completed (h : Accounted policy egress issuer world) {permit : InFlightPermit}
    (hmem : permit ∈ world.live) (outcome : Outcome) (key : ConstraintKey) :
    ((world.frontier.completed permit outcome).entry key).inFlight +
        (if permit.holds key then 1 else 0) = (world.frontier.entry key).inFlight ∧
      (policy.Allows (world.frontier.entry key).window →
        policy.Allows ((world.frontier.completed permit outcome).entry key).window) ∧
      (key ∉ permit.serverKeys → ((world.frontier.completed permit outcome).entry key).window =
        (world.frontier.entry key).window) := by
  obtain ⟨-, hkeyed, -⟩ := h.issued permit hmem
  have hholds : permit.holds key = true ↔ key ∈ permit.keys := by simp [InFlightPermit.holds]
  have hcount := h.counted key
  have hpos : permit.holds key = true → 0 < (world.frontier.entry key).inFlight := by
    intro hholds
    rw [hcount]
    exact List.length_pos_of_mem (List.mem_filter.mpr ⟨hmem, hholds⟩)
  have hsettle (entry : KeyState) :
      (entry.settle policy outcome).inFlight = entry.inFlight ∧
        (policy.Allows entry.window → policy.Allows (entry.settle policy outcome).window) := by
    cases outcome with
    | cacheHit => exact ⟨rfl, id⟩
    | failure => exact ⟨rfl, fun _ => policy.allows_clamp _⟩
    | success =>
      simp only [KeyState.settle]
      split
      · exact ⟨rfl, fun _ => policy.allows_clamp _⟩
      · exact ⟨rfl, id⟩
  have hreleased : ∀ asked, ((({ world.frontier with
      reservations := world.frontier.reservations.erase permit.ordinal } : Frontier).updateAll
        permit.keys KeyState.release).entry asked) =
      if asked ∈ permit.keys then (world.frontier.entry asked).release
      else world.frontier.entry asked := fun asked => Frontier.entry_updateAll hkeyed.keys_nodup asked
  unfold Frontier.completed
  rw [Frontier.entry_updateAll hkeyed.serverKeys_nodup, hreleased, h.policy_eq]
  have hsub : key ∈ permit.serverKeys → key ∈ permit.keys := fun hin => List.mem_append_left _ hin
  by_cases hserver : key ∈ permit.serverKeys
  · have hin := hsub hserver
    have hlt := hpos (hholds.mpr hin)
    simp only [hserver, hin, hholds.mpr hin, if_true, (hsettle _).1]
    refine ⟨?_, fun hallows => (hsettle _).2 hallows, fun hnot => absurd trivial hnot⟩
    simp only [KeyState.release]
    omega
  · by_cases hin : key ∈ permit.keys
    · have hlt := hpos (hholds.mpr hin)
      simp only [hserver, hin, hholds.mpr hin, if_true, if_false]
      refine ⟨?_, id, fun _ => rfl⟩
      simp only [KeyState.release]
      omega
    · have hnot : permit.holds key = false := by
        rw [← Bool.not_eq_true]
        exact fun hholding => hin (hholds.mp hholding)
      simp only [hserver, hin, hnot, if_false, Bool.false_eq_true]
      exact ⟨rfl, id, fun _ => trivial⟩

theorem complete (h : Accounted policy egress issuer world) {permit : InFlightPermit}
    (hknown : world.Known permit) (outcome : Outcome) :
    Accounted policy egress issuer (world.act (.complete permit outcome)) := by
  simp only [World.act]
  cases hrun : world.frontier.complete permit outcome with
  | error refusal => exact h
  | ok frontier =>
    obtain ⟨hverify, rfl⟩ := Frontier.complete_eq_ok.mp hrun
    have hmem := h.mem_live hknown hverify
    have hentry := h.entry_completed hmem outcome
    obtain ⟨-, hkeyed, hbelow⟩ := h.issued permit hmem
    have hreservations : (world.frontier.completed permit outcome).reservations =
        world.frontier.reservations.erase permit.ordinal := by simp [Frontier.completed]
    have hordinal : (world.frontier.completed permit outcome).nextOrdinal =
        world.frontier.nextOrdinal := by simp [Frontier.completed]
    have hperm := List.perm_cons_erase hmem
    constructor
    case policy_eq => simpa [Frontier.completed] using h.policy_eq
    case egress_eq => simpa [Frontier.completed] using h.egress_eq
    case issuer_eq => simpa [Frontier.completed] using h.issuer_eq
    case origins => simpa [Frontier.completed] using h.origins
    case issued =>
      intro other hother
      simp only [hordinal]
      exact h.issued other (List.mem_of_mem_erase hother)
    case distinct => exact h.distinct.sublist ((List.erase_sublist).map _)
    case ledger =>
      simp only [hreservations, h.ledger]
      ext ordinal
      have hnodup := (hperm.map InFlightPermit.ordinal).nodup_iff.mp h.distinct
      simp only [List.map_cons, List.nodup_cons] at hnodup
      have hiff := (hperm.map InFlightPermit.ordinal).mem_iff (a := ordinal)
      simp only [Finset.mem_erase, List.mem_toFinset, hiff, List.map_cons, List.mem_cons]
      constructor
      · rintro ⟨hne, heq | hin⟩
        · exact absurd heq hne
        · exact hin
      · intro hin
        refine ⟨?_, .inr hin⟩
        rintro rfl
        exact hnodup.1 hin
    case spent =>
      intro other hother
      simp only [hreservations, hordinal]
      rcases List.mem_cons.mp hother with rfl | hother
      · exact ⟨Finset.notMem_erase _ _, hbelow⟩
      · obtain ⟨hnotin, hlt⟩ := h.spent other hother
        exact ⟨fun hin => hnotin (Finset.mem_of_mem_erase hin), hlt⟩
    case counted =>
      intro key
      have hcount := h.counted key
      have hlength := (hperm.filter fun permit => permit.holds key).length_eq
      have hkey := (hentry key).1
      rw [List.filter_cons] at hlength
      simp only
      cases hholds : permit.holds key with
      | true =>
        simp only [hholds, if_true, List.length_cons] at hlength hkey
        omega
      | false =>
        simp only [hholds, Bool.false_eq_true, if_false] at hlength hkey
        omega
    case windows =>
      intro key hserver
      exact (hentry key).2.1 (h.windows key hserver)
    case egress_window =>
      refine ((hentry _).2.2 fun hserver => ?_).trans h.egress_window
      exact absurd (hkeyed.isServer hserver) (by simp [ConstraintKey.isServer])

theorem step (h : Accounted policy egress issuer world) {op : Op} {next : World}
    (taken : world.Step op next) : Accounted policy egress issuer next := by
  obtain ⟨hretry, hcomplete, rfl⟩ := taken
  cases op with
  | observeResolution host resolved => exact h.observeResolution host resolved
  | observeRules key rules => exact h.observeRules key rules
  | observeRetryAfter permit at_ delay =>
    exact h.observeRetryAfter (hretry permit at_ delay rfl) at_ delay
  | admit_ host at_ => exact h.admit_ host at_
  | complete permit outcome => exact h.complete (hcomplete permit outcome rfl) outcome
  | abandon host => exact h.abandon host

theorem run {trace : List (World × Op)} {final : World}
    (run : Run World.Step (.new policy egress issuer) trace final) :
    Accounted policy egress issuer final :=
  run.always (new policy egress issuer) fun _ _ _ h taken => h.step taken

end Accounted

/-- In every state a frontier comes to, whatever was observed, admitted, completed, dropped or given
up on the way: the counter of every key is the number of permits still out that hold it, and the
ledger counts the permits still out; windows keep to the policy, and the egress to its own; what is
admitted fits its windows; a permit of another frontier or of a settled reservation is refused and
changes nothing; and a completion finds a slot to give back for each of its keys. -/
theorem reservations_conserved {policy : PolitenessPolicy} {egress : Text} {issuer : Nat}
    {trace : List (World × Op)} {world : World}
    (run : Run World.Step (.new policy egress issuer) trace world) :
    (∀ key, world.frontier.inFlight key =
      (world.live.filter fun permit => permit.holds key).length) ∧
    world.frontier.outstanding = world.live.length ∧
    (∀ key, key.isServer = true → policy.Allows (world.frontier.window key)) ∧
    world.frontier.window (.egress egress) = policy.egressWindow ∧
    (∀ host at_ permit next, world.frontier.admit_ host at_ = (.admit_ permit, next) →
      permit.keys = world.frontier.keysFor host ∧
        ∀ key ∈ permit.keys, next.inFlight key ≤ next.window key) ∧
    (∀ permit, permit.issuer ≠ issuer ∨ permit ∈ world.settled →
      (∀ outcome, ∃ refusal, world.frontier.complete permit outcome = .error refusal) ∧
        (∀ outcome, world.act (.complete permit outcome) = world) ∧
        (∀ at_ delay, ∃ refusal, world.frontier.observeRetryAfter permit at_ delay = .error refusal) ∧
        ∀ at_ delay, world.act (.observeRetryAfter permit at_ delay) = world) ∧
    ∀ permit outcome next, world.Known permit →
      world.frontier.complete permit outcome = .ok next →
        ∀ key ∈ permit.keys, 0 < world.frontier.inFlight key := by
  have h := Accounted.run run
  refine ⟨?_, ?_, ?_, ?_, ?_, ?_, ?_⟩
  · intro key
    rw [Frontier.inFlight_eq, h.counted]
  · rw [Frontier.outstanding, h.ledger, List.toFinset_card_of_nodup h.distinct, List.length_map]
  · intro key hserver
    rw [Frontier.window_eq]
    exact h.windows key hserver
  · rw [Frontier.window_eq, h.egress_window]
  · intro host at_ permit next hrun
    obtain ⟨hverdict, -, rfl, rfl⟩ := Frontier.admit_eq.mp hrun
    refine ⟨rfl, fun key hmem => ?_⟩
    have hmem : key ∈ world.frontier.keysFor host := hmem
    obtain ⟨hlt, -⟩ := h.room hverdict hmem
    rw [Frontier.inFlight_eq, Frontier.window_eq, (h.entry_reserved hverdict key).1,
      (h.entry_reserved hverdict key).2, if_pos hmem]
    omega
  · intro permit hforeign
    have hverify : world.frontier.verify permit ≠ .ok () := by
      rw [Ne, Frontier.verify_eq_ok, h.issuer_eq]
      rintro ⟨hissuer, hmem⟩
      exact hforeign.elim (absurd hissuer) fun hsettled => (h.spent permit hsettled).1 hmem
    have hcomplete : ∀ outcome, ∃ refusal,
        world.frontier.complete permit outcome = .error refusal := by
      intro outcome
      cases hrun : world.frontier.complete permit outcome with
      | error refusal => exact ⟨refusal, rfl⟩
      | ok next => exact absurd (Frontier.complete_eq_ok.mp hrun).1 hverify
    have hretry : ∀ at_ delay, ∃ refusal,
        world.frontier.observeRetryAfter permit at_ delay = .error refusal := by
      intro at_ delay
      cases hrun : world.frontier.observeRetryAfter permit at_ delay with
      | error refusal => exact ⟨refusal, rfl⟩
      | ok next => exact absurd (Frontier.observeRetryAfter_eq_ok.mp hrun).1 hverify
    refine ⟨hcomplete, fun outcome => ?_, hretry, fun at_ delay => ?_⟩
    · obtain ⟨refusal, hrefusal⟩ := hcomplete outcome
      simp only [World.act, hrefusal]
    · obtain ⟨refusal, hrefusal⟩ := hretry at_ delay
      simp only [World.act, hrefusal]
  · intro permit outcome next hknown hrun key hkey
    have hmem := h.mem_live hknown (Frontier.complete_eq_ok.mp hrun).1
    rw [Frontier.inFlight_eq, h.counted]
    refine List.length_pos_of_mem (List.mem_filter.mpr ⟨hmem, ?_⟩)
    simpa [InFlightPermit.holds] using hkey

def movedHost : World :=
  ((((World.new .default "eth0".toList 0).act
    (.observeResolution "a".toList (.origin "one".toList))).act
      (.observeRules (.host "a".toList) .allowed)).act (.admit_ "a".toList 0)).act
        (.observeResolution "a".toList (.origin "two".toList))

theorem reservations_conserved_moved :
    movedHost.frontier.inFlight (.origin "one".toList) =
        (movedHost.live.filter fun permit => permit.holds (.origin "one".toList)).length ∧
      movedHost.frontier.inFlight (.origin "one".toList) = 1 := by
  have hquiet (world : World) (op : Op)
      (h : ∀ permit at_ delay outcome, op ≠ .observeRetryAfter permit at_ delay ∧
        op ≠ .complete permit outcome) : world.Step op (world.act op) :=
    ⟨fun permit at_ delay heq => absurd heq (h permit at_ delay .success).1,
      fun permit outcome heq => absurd heq (h permit 0 0 outcome).2, rfl⟩
  refine ⟨(reservations_conserved (.snoc (.snoc (.snoc (.snoc .refl (hquiet _ _ ?_)) (hquiet _ _ ?_))
    (hquiet _ _ ?_)) (hquiet _ _ ?_))).1 _, by decide +kernel⟩
  all_goals
    intro permit at_ delay outcome
    exact ⟨nofun, nofun⟩

end LogicalWorks.Politeness
