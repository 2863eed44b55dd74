import Mathlib.Data.List.Nodup
import LogicalWorks.Journal.PlainWire
import LogicalWorks.Lease.Domain

/-! A lease is honoured only while it was current, whatever the network delivers: every reply
a call accepts was made by one step of the server, taken while the call waited. -/
namespace LogicalWorks.Lease

open Journal LogicalWorks.Task

variable {key : WireKey} {domain next : Domain} {nonce : Nonce} {call : Call} {stream : Bytes}

structure Sound (key : WireKey) (domain : Domain) : Prop where
  once : ∀ {nonce call other}, (nonce, call) ∈ domain.asked → (nonce, other) ∈ domain.asked →
    call = other
  waiting : ∀ {nonce call}, domain.waiting.get nonce = some call → (nonce, call) ∈ domain.asked
  sent : ∀ frame ∈ domain.sent,
    (∃ nonce call, (nonce, call) ∈ domain.asked ∧
        encodeRequest key call.op nonce call.name = .ok frame) ∨
      ∃ nonce epoch, (Nonce.bytes nonce, epoch) ∈ domain.replied ∧
        frame = encodeReply key nonce.bytes epoch
  replied : ∀ {answered epoch}, (answered, epoch) ∈ domain.replied →
    ∃ nonce call, answered = Nonce.bytes nonce ∧ (nonce, call) ∈ domain.asked ∧
      ∀ holder, call = .acquire holder → ⟨epoch, some holder, some nonce⟩ ∈ domain.moved
  epoch : domain.authority.epoch.toNat = min domain.moved.length (2 ^ 64 - 1)
  numbered : ∀ {place : Nat} {moved : Moved}, domain.moved[place]? = some moved →
    moved.epoch.toNat = min (place + 1) (2 ^ 64 - 1)
  leased : ∀ {origin lease}, (origin, lease) ∈ domain.leases →
    ⟨lease.epoch, some lease.holder, origin⟩ ∈ domain.moved
  returned : ∀ {nonce lease}, (some nonce, lease) ∈ domain.leases →
    domain.waiting.get nonce = none ∧ ∃ call, (nonce, call) ∈ domain.asked
  distinct : domain.moved.length < 2 ^ 64 →
    (domain.leases.map fun leased => leased.2.epoch).Nodup

theorem Nonce.ext {left right : Nonce} (h : left.bytes = right.bytes) : left = right := by
  cases left
  cases right
  cases h
  rfl

theorem Sound.request (sound : Sound key domain) (unforged : domain.Unforged key stream)
    {request : Request} (h : readRequest key stream = .ok request) :
    ∃ nonce call, (nonce, call) ∈ domain.asked ∧ request = ⟨call.op, nonce.bytes, call.name⟩ := by
  obtain ⟨body, hmagic, hsent⟩ := readRequest_ok h
  rcases sound.sent _ (unforged body hsent) with ⟨nonce, call, hasked, hframe⟩ |
    ⟨nonce, epoch, -, hframe⟩
  · obtain ⟨rest, hrest⟩ := hsent
    have hread := readRequest_encoded hframe rest
    rw [hrest, h] at hread
    exact ⟨nonce, call, hasked, Except.ok.inj hread⟩
  · exact absurd hframe (request_ne_reply hmagic)

theorem Sound.reply (sound : Sound key domain) (unforged : domain.Unforged key stream)
    {reply rest : Bytes} {epoch : UInt64} (hfill : fill replyLen stream = .ok (reply, rest))
    (h : decodeReply key nonce reply = .ok epoch) : (nonce.bytes, epoch) ∈ domain.replied := by
  obtain ⟨body, hmagic, hsent⟩ := decodeReply_ok h
  have hstream : key.tagged body <+: stream := by
    rw [(fill_ok hfill).1]
    exact hsent.trans (List.prefix_append _ _)
  rcases sound.sent _ (unforged body hstream) with ⟨asked, call, -, hframe⟩ |
    ⟨asked, answered, hreplied, hframe⟩
  · exact absurd rfl (reply_ne_request hmagic hframe)
  · obtain ⟨behind, hbehind⟩ := hsent
    have hdecode := @decodeReply_encoded key nonce asked.bytes asked.length_bytes answered behind
    rw [← hframe, hbehind, h] at hdecode
    split at hdecode
    · rename_i hsame
      cases hdecode
      rwa [← hsame]
    · cases hdecode

theorem originOf_asked (h : (nonce, call) ∈ domain.asked) :
    domain.originOf nonce.bytes = some nonce := by
  unfold Domain.originOf
  cases hfind : domain.asked.find? fun asked => asked.1.bytes = nonce.bytes with
  | none =>
    have hnone := List.find?_eq_none.mp hfind _ h
    simp at hnone
  | some found =>
    have hsame := List.find?_some hfind
    rw [Option.map_some, Nonce.ext (of_decide_eq_true hsame)]

theorem toNat_nextEpoch (epoch : UInt64) :
    (LeaseAuthority.nextEpoch epoch).toNat = min (epoch.toNat + 1) (2 ^ 64 - 1) := by
  have hbound := epoch.toNat_lt
  unfold LeaseAuthority.nextEpoch
  split
  · rename_i hroom
    rw [UInt64.toNat_add, UInt64.toNat_one, Nat.mod_eq_of_lt hroom]
    omega
  · omega

theorem Sound.move (sound : Sound key domain) {authority : LeaseAuthority} (origin : Option Nonce)
    (hnext : authority.epoch = LeaseAuthority.nextEpoch domain.authority.epoch) :
    Sound key (domain.move authority origin) := by
  have hepoch : authority.epoch.toNat = min (domain.moved.length + 1) (2 ^ 64 - 1) := by
    rw [hnext, toNat_nextEpoch, sound.epoch]
    omega
  have hmoved : ∀ {moved}, moved ∈ domain.moved → moved ∈ (domain.move authority origin).moved :=
    fun h => List.mem_append_left _ h
  refine ⟨sound.once, sound.waiting, sound.sent, ?_, ?_, ?_, ?_, sound.returned, ?_⟩
  · intro answered epoch hreplied
    obtain ⟨nonce, call, hbytes, hasked, hleased⟩ := sound.replied hreplied
    exact ⟨nonce, call, hbytes, hasked, fun holder hcall => hmoved (hleased holder hcall)⟩
  · change authority.epoch.toNat = min (domain.moved ++ [_]).length _
    rw [hepoch, List.length_append, List.length_singleton]
  · intro place moved hplace
    change (domain.moved ++ [_])[place]? = some moved at hplace
    rcases Nat.lt_trichotomy place domain.moved.length with hless | rfl | hmore
    · rw [List.getElem?_append_left hless] at hplace
      exact sound.numbered hplace
    · rw [List.getElem?_concat_length] at hplace
      cases hplace
      exact hepoch
    · rw [List.getElem?_eq_none (by rw [List.length_append, List.length_singleton]; omega)]
        at hplace
      cases hplace
  · intro leasedBy lease hlease
    exact hmoved (sound.leased hlease)
  · intro hbound
    change (domain.moved ++ [_]).length < _ at hbound
    rw [List.length_append] at hbound
    exact sound.distinct (by omega)

theorem Sound.handOut (sound : Sound key domain) {origin : Option Nonce} {lease : Lease}
    (hmoved : ⟨lease.epoch, some lease.holder, origin⟩ ∈ domain.moved)
    (hreturned : ∀ nonce, origin = some nonce →
      domain.waiting.get nonce = none ∧ ∃ call, (nonce, call) ∈ domain.asked)
    (hfresh : domain.moved.length < 2 ^ 64 →
      ∀ leased ∈ domain.leases, leased.2.epoch ≠ lease.epoch) :
    Sound key { domain with leases := domain.leases ++ [(origin, lease)] } := by
  refine ⟨sound.once, sound.waiting, sound.sent, sound.replied, sound.epoch, sound.numbered,
    ?_, ?_, ?_⟩
  · intro leasedBy other hlease
    rcases List.mem_append.mp hlease with hearlier | hlast
    · exact sound.leased hearlier
    · cases List.mem_singleton.mp hlast
      exact hmoved
  · intro nonce other hlease
    rcases List.mem_append.mp hlease with hearlier | hlast
    · exact sound.returned hearlier
    · cases List.mem_singleton.mp hlast
      exact hreturned nonce rfl
  · intro hbound
    rw [List.map_append, List.map_singleton]
    refine List.nodup_append.mpr ⟨sound.distinct hbound, List.nodup_singleton _, ?_⟩
    intro epoch hepoch last hlast
    obtain ⟨leased, hleased, rfl⟩ := List.mem_map.mp hepoch
    rw [List.mem_singleton.mp hlast]
    exact hfresh hbound leased hleased

theorem Sound.answers (sound : Sound key domain) (hasked : (nonce, call) ∈ domain.asked)
    {epoch : UInt64} (hminted : ∀ holder, call = .acquire holder →
      ⟨epoch, some holder, some nonce⟩ ∈ domain.moved) :
    Sound key { domain with
      sent := domain.sent ++ [encodeReply key nonce.bytes epoch]
      replied := domain.replied ++ [(nonce.bytes, epoch)] } := by
  refine ⟨sound.once, sound.waiting, ?_, ?_, sound.epoch, sound.numbered, sound.leased,
    sound.returned, sound.distinct⟩
  · intro frame hframe
    rcases List.mem_append.mp hframe with hearlier | hlast
    · rcases sound.sent frame hearlier with hrequest | ⟨other, answered, hreplied, hreply⟩
      · exact .inl hrequest
      · exact .inr ⟨other, answered, List.mem_append_left _ hreplied, hreply⟩
    · exact .inr ⟨nonce, epoch, List.mem_append_right _ (List.mem_singleton_self _),
        List.mem_singleton.mp hlast⟩
  · intro answered replied hreplied
    rcases List.mem_append.mp hreplied with hearlier | hlast
    · exact sound.replied hearlier
    · cases List.mem_singleton.mp hlast
      exact ⟨nonce, call, rfl, hasked, hminted⟩

theorem Sound.settles (sound : Sound key domain) (nonce : Nonce) :
    Sound key { domain with waiting := domain.waiting.remove nonce } := by
  have hremoved : ∀ {other : Nonce} {call : Call},
      (domain.waiting.remove nonce).get other = some call →
        domain.waiting.get other = some call := by
    intro other call h
    rw [Table.get_remove] at h
    split at h
    · cases h
    · exact h
  refine ⟨sound.once, fun h => sound.waiting (hremoved h), sound.sent, sound.replied, sound.epoch,
    sound.numbered, sound.leased, ?_, sound.distinct⟩
  intro other lease hlease
  obtain ⟨hnone, hasked⟩ := sound.returned hlease
  refine ⟨?_, hasked⟩
  change (domain.waiting.remove nonce).get other = none
  rw [Table.get_remove, hnone]
  split <;> rfl

theorem Sound.asks (sound : Sound key domain)
    (hfresh : ∀ asked ∈ domain.asked, asked.1 ≠ nonce) :
    Sound key { domain with asked := domain.asked ++ [(nonce, call)] } := by
  have hold : ∀ {asked}, asked ∈ domain.asked → asked ∈ domain.asked ++ [(nonce, call)] :=
    fun h => List.mem_append_left _ h
  refine ⟨?_, fun h => hold (sound.waiting h), ?_, ?_, sound.epoch, sound.numbered, sound.leased,
    ?_, sound.distinct⟩
  · intro asked first second hfirst hsecond
    rcases List.mem_append.mp hfirst with hfirst | hfirst
    · rcases List.mem_append.mp hsecond with hsecond | hsecond
      · exact sound.once hfirst hsecond
      · cases List.mem_singleton.mp hsecond
        exact absurd rfl (hfresh _ hfirst)
    · rcases List.mem_append.mp hsecond with hsecond | hsecond
      · cases List.mem_singleton.mp hfirst
        exact absurd rfl (hfresh _ hsecond)
      · cases List.mem_singleton.mp hfirst
        cases List.mem_singleton.mp hsecond
        rfl
  · intro frame hframe
    rcases sound.sent frame hframe with ⟨asked, other, hasked, hrequest⟩ | hreply
    · exact .inl ⟨asked, other, hold hasked, hrequest⟩
    · exact .inr hreply
  · intro answered epoch hreplied
    obtain ⟨asked, other, hbytes, hasked, hminted⟩ := sound.replied hreplied
    exact ⟨asked, other, hbytes, hold hasked, hminted⟩
  · intro asked lease hlease
    obtain ⟨hnone, other, hasked⟩ := sound.returned hlease
    exact ⟨hnone, other, hold hasked⟩

theorem Sound.sends (sound : Sound key domain) (hasked : (nonce, call) ∈ domain.asked)
    (hunleased : ∀ leased ∈ domain.leases, leased.1 ≠ some nonce) {frame : Bytes}
    (hframe : encodeRequest key call.op nonce call.name = .ok frame) :
    Sound key { domain with
      sent := domain.sent ++ [frame]
      waiting := domain.waiting.insert nonce call } := by
  refine ⟨sound.once, ?_, ?_, sound.replied, sound.epoch, sound.numbered, sound.leased, ?_,
    sound.distinct⟩
  · intro other asked h
    change (domain.waiting.insert nonce call).get other = some asked at h
    rw [Table.get_insert] at h
    split at h
    · rename_i hsame
      cases h
      rw [hsame]
      exact hasked
    · exact sound.waiting h
  · intro other hother
    rcases List.mem_append.mp hother with hearlier | hlast
    · exact sound.sent other hearlier
    · rw [List.mem_singleton.mp hlast]
      exact .inl ⟨nonce, call, hasked, hframe⟩
  · intro other lease hlease
    obtain ⟨hnone, hother⟩ := sound.returned hlease
    refine ⟨?_, hother⟩
    change (domain.waiting.insert nonce call).get other = none
    rw [Table.get_insert_of_ne _ _ (fun hsame => hunleased _ hlease (by rw [hsame])), hnone]

theorem Sound.unique (sound : Sound key domain) (hbound : domain.moved.length < 2 ^ 64)
    {moved other : Moved} (h : moved ∈ domain.moved) (hother : other ∈ domain.moved)
    (hsame : moved.epoch = other.epoch) : moved = other := by
  obtain ⟨place, hplace⟩ := List.mem_iff_getElem?.mp h
  obtain ⟨elsewhere, helsewhere⟩ := List.mem_iff_getElem?.mp hother
  have hnumber := sound.numbered hplace
  have hnumber' := sound.numbered helsewhere
  have hinside := (List.getElem?_eq_some_iff.mp hplace).1
  have hinside' := (List.getElem?_eq_some_iff.mp helsewhere).1
  rw [hsame] at hnumber
  have hplaces : place = elsewhere := by omega
  rw [hplaces, helsewhere] at hplace
  exact (Option.some.inj hplace).symm

theorem Sound.fresh (sound : Sound key domain) (hbound : domain.moved.length + 1 < 2 ^ 64)
    {moved : Moved} (h : moved ∈ domain.moved) :
    moved.epoch ≠ LeaseAuthority.nextEpoch domain.authority.epoch := by
  intro hsame
  obtain ⟨place, hplace⟩ := List.mem_iff_getElem?.mp h
  have hnumber := sound.numbered hplace
  have hinside := (List.getElem?_eq_some_iff.mp hplace).1
  rw [hsame, toNat_nextEpoch, sound.epoch] at hnumber
  omega

theorem answered_lease {lease : Lease} (h : (call.answered key nonce stream).lease = some lease) :
    call = .acquire lease.holder ∧ ∃ reply rest, fill replyLen stream = .ok (reply, rest) ∧
      decodeReply key nonce reply = .ok lease.epoch := by
  unfold Call.answered at h
  cases hfill : fill replyLen stream with
  | error refusal =>
    rw [hfill] at h
    cases h
  | ok pair =>
    obtain ⟨reply, rest⟩ := pair
    rw [hfill] at h
    change (call.returns (decodeReply key nonce reply)).lease = some lease at h
    cases hdecode : decodeReply key nonce reply with
    | error refusal =>
      rw [hdecode] at h
      cases h
    | ok epoch =>
      rw [hdecode] at h
      cases call with
      | acquire holder =>
        cases h
        exact ⟨rfl, reply, rest, rfl, hdecode⟩
      | validate other => cases h
      | admits other =>
        simp only [Call.returns] at h
        split at h
        · cases h
        · cases h

theorem Sound.start : Sound key .start := by
  refine ⟨?_, ?_, ?_, ?_, rfl, ?_, ?_, ?_, ?_⟩
  · intro nonce call other h
    cases h
  · intro nonce call h
    cases h
  · intro frame h
    cases h
  · intro answered epoch h
    cases h
  · intro place moved h
    cases h
  · intro origin lease h
    cases h
  · intro nonce lease h
    cases h
  · intro _
    exact List.nodup_nil

theorem Sound.answer (sound : Sound key domain) (hasked : (nonce, call) ∈ domain.asked) :
    Sound key (domain.answer key ⟨call.op, nonce.bytes, call.name⟩) := by
  cases call with
  | acquire holder =>
    have hmove := @Sound.move key domain sound (domain.authority.acquire holder).2 (some nonce) rfl
    have horigin := originOf_asked hasked
    have hanswer := @Sound.answers key _ nonce (.acquire holder) hmove hasked
      (LeaseAuthority.nextEpoch domain.authority.epoch) (by
        intro other hother
        cases hother
        exact List.mem_append_right _ (List.mem_singleton_self _))
    unfold Domain.answer
    simp only [Call.op, Call.name, horigin]
    exact hanswer
  | validate lease =>
    exact sound.answers hasked (fun holder hcall => by cases hcall)
  | admits lease =>
    exact sound.answers hasked (fun holder hcall => by cases hcall)

theorem Sound.step (sound : Sound key domain) {action : Action}
    (taken : Domain.Step key domain action next) : Sound key next := by
  obtain ⟨hallowed, rfl⟩ := taken
  cases action with
  | ask call nonce =>
    have hasks := @Sound.asks key domain nonce call sound hallowed
    simp only [Domain.act]
    cases hframe : encodeRequest key call.op nonce call.name with
    | error refusal => exact hasks
    | ok frame =>
      refine hasks.sends (List.mem_append_right _ (List.mem_singleton_self _)) ?_ hframe
      intro leased hleased horigin
      obtain ⟨origin, lease⟩ := leased
      cases horigin
      obtain ⟨-, other, hasked⟩ := sound.returned hleased
      exact hallowed _ hasked rfl
  | reply nonce stream =>
    simp only [Domain.act]
    cases hcall : domain.waiting.get nonce with
    | none => exact sound
    | some call =>
      have hsettles := sound.settles nonce
      cases hlease : (call.answered key nonce stream).lease with
      | none =>
        simp only [hlease, Option.map_none, Option.toList_none, List.append_nil]
        exact hsettles
      | some lease =>
        obtain ⟨hacquire, reply, rest, hfill, hdecode⟩ := answered_lease hlease
        obtain ⟨asked, other, hbytes, hasked, hminted⟩ :=
          sound.replied (sound.reply hallowed hfill hdecode)
        cases Nonce.ext hbytes
        have hmoved := hminted lease.holder
          ((sound.once (sound.waiting hcall) hasked).symm.trans hacquire)
        simp only [hlease, Option.map_some, Option.toList_some]
        refine hsettles.handOut hmoved ?_ ?_
        · intro waited hwaited
          cases hwaited
          refine ⟨?_, call, sound.waiting hcall⟩
          change (domain.waiting.remove nonce).get nonce = none
          rw [Table.get_remove, if_pos rfl]
        · intro hbound leased hleased hsame
          obtain ⟨origin, earlier⟩ := leased
          have hentry := sound.unique hbound (sound.leased hleased) hmoved hsame
          cases congrArg Moved.origin hentry
          rw [(sound.returned hleased).1] at hcall
          cases hcall
  | fails nonce => exact sound.settles nonce
  | serve stream =>
    simp only [Domain.act]
    cases hread : readRequest key stream with
    | error refusal => exact sound
    | ok request =>
      obtain ⟨nonce, call, hasked, rfl⟩ := sound.request hallowed hread
      exact sound.answer hasked
  | acquire holder =>
    have hmove := @Sound.move key domain sound (domain.authority.acquire holder).2 none rfl
    refine hmove.handOut (List.mem_append_right _ (List.mem_singleton_self _)) ?_ ?_
    · intro nonce horigin
      cases horigin
    · intro hbound leased hleased
      change (domain.moved ++ [_]).length < _ at hbound
      rw [List.length_append] at hbound
      exact sound.fresh hbound (sound.leased hleased)
  | check lease => exact sound
  | revoke => exact sound.move none rfl

theorem Sound.run {trace : List (Domain × Action)}
    (run : Run (Domain.Step key) .start trace domain) : Sound key domain :=
  run.always .start fun _ _ _ sound taken => sound.step taken

theorem epoch_le {action : Action} (taken : Domain.Step key domain action next) :
    domain.authority.epoch ≤ next.authority.epoch := by
  have hmove : domain.authority.epoch ≤ LeaseAuthority.nextEpoch domain.authority.epoch := by
    have hbound := domain.authority.epoch.toNat_lt
    rw [UInt64.le_iff_toNat_le, toNat_nextEpoch]
    omega
  obtain ⟨-, rfl⟩ := taken
  cases action with
  | ask call nonce =>
    simp only [Domain.act]
    split <;> exact UInt64.le_refl _
  | reply nonce stream =>
    simp only [Domain.act]
    split <;> exact UInt64.le_refl _
  | fails nonce => exact UInt64.le_refl _
  | serve stream =>
    simp only [Domain.act]
    split
    · exact UInt64.le_refl _
    · simp only [Domain.answer]
      split
      · exact UInt64.le_refl _
      · exact hmove
  | acquire holder => exact hmove
  | check lease => exact UInt64.le_refl _
  | revoke => exact hmove

theorem epoch_le_run {start final : Domain} {trace : List (Domain × Action)}
    (run : Run (Domain.Step key) start trace final) :
    start.authority.epoch ≤ final.authority.epoch :=
  run.always (I := fun domain => start.authority.epoch ≤ domain.authority.epoch)
    (UInt64.le_refl _) fun _ _ _ hstart taken => UInt64.le_trans hstart (epoch_le taken)

theorem asked_by {action : Action} (taken : Domain.Step key domain action next)
    (hbefore : (nonce, call) ∉ domain.asked) (hafter : (nonce, call) ∈ next.asked) :
    action = .ask call nonce := by
  obtain ⟨-, rfl⟩ := taken
  cases action with
  | ask asked drawn =>
    have hasked : (Domain.act key domain (.ask asked drawn)).asked =
        domain.asked ++ [(drawn, asked)] := by
      simp only [Domain.act]
      split <;> rfl
    rw [hasked] at hafter
    rcases List.mem_append.mp hafter with hearlier | hlast
    · exact absurd hearlier hbefore
    · cases List.mem_singleton.mp hlast
      rfl
  | reply drawn stream =>
    simp only [Domain.act] at hafter
    split at hafter <;> exact absurd hafter hbefore
  | fails drawn => exact absurd hafter hbefore
  | serve stream =>
    simp only [Domain.act] at hafter
    split at hafter
    · exact absurd hafter hbefore
    · simp only [Domain.answer] at hafter
      split at hafter <;> exact absurd hafter hbefore
  | acquire holder => exact absurd hafter hbefore
  | check lease => exact absurd hafter hbefore
  | revoke => exact absurd hafter hbefore

theorem replied_by {action : Action} {answered : Bytes} {epoch : UInt64}
    (taken : Domain.Step key domain action next) (hbefore : (answered, epoch) ∉ domain.replied)
    (hafter : (answered, epoch) ∈ next.replied) : next.authority.epoch = epoch := by
  obtain ⟨-, rfl⟩ := taken
  cases action with
  | serve stream =>
    simp only [Domain.act] at hafter ⊢
    split at hafter
    · exact absurd hafter hbefore
    · rename_i request hread
      have hlast : ∀ {replied : List (Bytes × UInt64)} {read : UInt64},
          replied = domain.replied →
          (answered, epoch) ∈ replied ++ [(request.nonce, read)] → read = epoch := by
        rintro replied read rfl hmem
        rcases List.mem_append.mp hmem with hearlier | hlast
        · exact absurd hearlier hbefore
        · cases List.mem_singleton.mp hlast
          rfl
      simp only [Domain.answer] at hafter ⊢
      split at hafter
      · exact hlast rfl hafter
      · exact hlast rfl hafter
  | ask asked drawn =>
    simp only [Domain.act] at hafter
    split at hafter <;> exact absurd hafter hbefore
  | reply drawn stream =>
    simp only [Domain.act] at hafter
    split at hafter <;> exact absurd hafter hbefore
  | fails drawn => exact absurd hafter hbefore
  | acquire holder => exact absurd hafter hbefore
  | check lease => exact absurd hafter hbefore
  | revoke => exact absurd hafter hbefore

theorem answered_honours {lease : Lease} (h : Honours lease call (call.answered key nonce stream)) :
    ∃ reply rest, fill replyLen stream = .ok (reply, rest) ∧
      decodeReply key nonce reply = .ok lease.epoch := by
  generalize hreturned : call.answered key nonce stream = returned at h
  unfold Call.answered at hreturned
  cases hfill : fill replyLen stream with
  | error refusal =>
    rw [hfill] at hreturned
    change Returned.unanswered _ = _ at hreturned
    subst hreturned
    cases h
  | ok pair =>
    obtain ⟨reply, rest⟩ := pair
    rw [hfill] at hreturned
    change call.returns (decodeReply key nonce reply) = _ at hreturned
    refine ⟨reply, rest, rfl, ?_⟩
    cases hdecode : decodeReply key nonce reply with
    | error refusal =>
      rw [hdecode] at hreturned
      change Returned.unanswered _ = _ at hreturned
      subst hreturned
      cases h
    | ok epoch =>
      rw [hdecode] at hreturned
      cases h with
      | valid =>
        have hsame : decide (epoch = lease.epoch) = true := Returned.valid.inj hreturned
        rw [of_decide_eq_true hsame]
      | admitted =>
        simp only [Call.returns] at hreturned
        split at hreturned
        · rename_i hsame
          rw [hsame]
        · cases hreturned

def CurrentWithin (key : WireKey) (start final : Domain) (trace : List (Domain × Action))
    (epoch : UInt64) : Prop :=
  ∃ left moment right, trace = left ++ right ∧ Run (Domain.Step key) start left moment ∧
    Run (Domain.Step key) moment right final ∧ moment.authority.epoch = epoch

theorem current_of_window {first middle : List (Domain × Action)} {begun asked : Domain}
    (hfirst : Run (Domain.Step key) .start first begun)
    (htaken : Domain.Step key begun (.ask call nonce) asked)
    (hmiddle : Run (Domain.Step key) asked middle domain) {epoch : UInt64}
    (hreplied : (nonce.bytes, epoch) ∈ domain.replied) :
    CurrentWithin key begun domain ((begun, .ask call nonce) :: middle) epoch := by
  have hunreplied : (nonce.bytes, epoch) ∉ begun.replied := by
    intro hearlier
    obtain ⟨other, question, hbytes, hmem, -⟩ := (Sound.run hfirst).replied hearlier
    cases Nonce.ext hbytes
    exact htaken.1 _ hmem rfl
  have hwindow : Run (Domain.Step key) begun ((begun, .ask call nonce) :: middle) domain :=
    (Run.snoc Run.refl htaken).trans hmiddle
  obtain ⟨left, state, label, moment, right, hsplit, hleft, hserved, hright, hbefore, hafter⟩ :=
    hwindow.crossing (P := fun domain => (nonce.bytes, epoch) ∈ domain.replied) hunreplied hreplied
  refine ⟨left ++ [(state, label)], moment, right, ?_, hleft.snoc hserved, hright,
    replied_by hserved hbefore hafter⟩
  rw [hsplit, List.append_assoc, List.singleton_append]

/-- A call that reads a reply is the step its nonce was drawn in, some steps later. -/
theorem asked_before {trace : List (Domain × Action)}
    (run : Run (Domain.Step key) .start trace domain)
    (hwaiting : domain.waiting.get nonce = some call) :
    ∃ first begun asked middle, trace = first ++ (begun, .ask call nonce) :: middle ∧
      Run (Domain.Step key) .start first begun ∧ Domain.Step key begun (.ask call nonce) asked ∧
      Run (Domain.Step key) asked middle domain := by
  obtain ⟨first, begun, action, asked, middle, rfl, hfirst, htaken, hmiddle, hnot, hnow⟩ :=
    run.crossing (P := fun domain => (nonce, call) ∈ domain.asked) List.not_mem_nil
      ((Sound.run run).waiting hwaiting)
  cases asked_by htaken hnot hnow
  exact ⟨first, begun, asked, middle, rfl, hfirst, htaken, hmiddle⟩

theorem replied_of_honours {lease : Lease} (sound : Sound key domain)
    (unforged : domain.Unforged key stream)
    (h : Honours lease call (call.answered key nonce stream)) :
    (nonce.bytes, lease.epoch) ∈ domain.replied := by
  obtain ⟨reply, rest, hfill, hdecode⟩ := answered_honours h
  exact sound.reply unforged hfill hdecode

section Statement

variable (key : WireKey)

/-- No two leases handed out carry one epoch, and each names the holder the authority recorded
when it minted that epoch, which it did once. -/
def LeasesDistinct (domain : Domain) : Prop :=
  (domain.leases.map fun leased => leased.2.epoch).Nodup ∧
    ∀ leased ∈ domain.leases, ∃ minted ∈ domain.moved, minted.epoch = leased.2.epoch ∧
      minted.holder = some leased.2.holder ∧
      ∀ other ∈ domain.moved, other.epoch = leased.2.epoch → other = minted

def HonouredWithin (trace : List (Domain × Action)) : Prop :=
  (∀ before state lease after, trace = before ++ (state, Action.check lease) :: after →
      state.authority.check lease = true → state.authority.epoch = lease.epoch) ∧
    ∀ before state nonce stream after call lease,
      trace = before ++ (state, Action.reply nonce stream) :: after →
        state.waiting.get nonce = some call →
        Honours lease call (call.answered key nonce stream) →
        ∃ first begun middle, before = first ++ (begun, .ask call nonce) :: middle ∧
          CurrentWithin key begun state ((begun, .ask call nonce) :: middle) lease.epoch

/-- Behind a move of the epoch past a lease, no call that begins finds it current. -/
def RefusedLater (trace : List (Domain × Action)) (final : Domain) : Prop :=
  ∀ earlier past later lease, trace = earlier ++ later →
    Run (Domain.Step key) .start earlier past → Run (Domain.Step key) past later final →
    lease.epoch < past.authority.epoch →
    (∀ state, (state, Action.check lease) ∈ later → state.authority.check lease = false) ∧
      ∀ first begun call nonce middle state stream after,
        later = first ++ (begun, Action.ask call nonce) ::
          (middle ++ (state, .reply nonce stream) :: after) →
        ¬ Honours lease call (call.answered key nonce stream)

end Statement

theorem LeasesDistinct.of_run {trace : List (Domain × Action)}
    (run : Run (Domain.Step key) .start trace domain)
    (hbound : domain.moved.length < 2 ^ 64 - 1) : LeasesDistinct domain := by
  have sound := Sound.run run
  refine ⟨sound.distinct (by omega), ?_⟩
  intro leased hleased
  have hmoved := sound.leased hleased
  refine ⟨_, hmoved, rfl, rfl, ?_⟩
  intro other hother hsame
  exact sound.unique (by omega) hother hmoved hsame

theorem HonouredWithin.of_run {trace : List (Domain × Action)}
    (run : Run (Domain.Step key) .start trace domain) : HonouredWithin key trace := by
  refine ⟨?_, ?_⟩
  · intro before state lease after _ hcheck
    exact (of_decide_eq_true hcheck).symm
  · intro before state nonce stream after call lease htrace hwaiting hhonours
    subst htrace
    obtain ⟨middle, hbefore, hafter⟩ := run.split
    obtain ⟨rfl, next, htaken, -⟩ := hafter.head
    obtain ⟨first, begun, asked, rest, rfl, hfirst, hask, hrest⟩ := asked_before hbefore hwaiting
    exact ⟨first, begun, rest, rfl, current_of_window hfirst hask hrest
      (replied_of_honours (Sound.run hbefore) htaken.1 hhonours)⟩

theorem RefusedLater.of_run {trace : List (Domain × Action)} :
    RefusedLater key trace domain := by
  intro earlier past later lease _ hearlier hlater hpast
  refine ⟨?_, ?_⟩
  · intro state hcheck
    obtain ⟨before, after, -, hreach, -⟩ := hlater.cut hcheck
    refine decide_eq_false ?_
    intro hsame
    have hnow := epoch_le_run hreach
    rw [← hsame] at hnow
    exact absurd hpast (UInt64.not_lt.mpr hnow)
  · intro first begun call nonce middle state stream after hsplit hhonours
    subst hsplit
    obtain ⟨reached, hfirst, hrest⟩ := hlater.split
    obtain ⟨rfl, asked, hask, hrest⟩ := hrest.head
    obtain ⟨answered, hmiddle, hlast⟩ := hrest.split
    obtain ⟨rfl, _, htaken, -⟩ := hlast.head
    have hbegun := hearlier.trans hfirst
    have hreached := hbegun.trans ((Run.snoc Run.refl hask).trans hmiddle)
    obtain ⟨left, moment, right, -, hleft, -, hepoch⟩ := current_of_window hbegun hask hmiddle
      (replied_of_honours (Sound.run hreached) htaken.1 hhonours)
    have hnow := epoch_le_run (hfirst.trans hleft)
    rw [hepoch] at hnow
    exact absurd hpast (UInt64.not_lt.mpr hnow)

/-- A lease is honoured only while it was current. -/
theorem lease_honoured_while_current {trace : List (Domain × Action)}
    (run : Run (Domain.Step key) .start trace domain)
    (hbound : domain.moved.length < 2 ^ 64 - 1) :
    LeasesDistinct domain ∧ HonouredWithin key trace ∧ RefusedLater key trace domain :=
  ⟨.of_run run hbound, .of_run run, .of_run⟩

namespace PlainWire

def plain : WireKey := ⟨Journal.PlainWire.checksum 1⟩

def unforged (domain : Domain) (stream : Bytes) : Bool :=
  (List.range (stream.length + 1)).all fun count =>
    plain.tagged (stream.take count) ≠ stream.take (count + headBytes) ||
      plain.tagged (stream.take count) ∈ domain.sent

theorem unforged_sound {stream : Bytes} (h : unforged domain stream = true) :
    domain.Unforged plain stream := by
  intro body hbody
  have hlength := hbody.length_le
  have htagged : (plain.tagged body).length = body.length + headBytes := by
    rw [WireKey.tagged, List.length_append, (plain.tag body).length_bytes]
  have htake : stream.take body.length = body :=
    (List.prefix_iff_eq_take.mp ((List.prefix_append body _).trans hbody)).symm
  have hall := List.all_eq_true.mp h body.length (List.mem_range.mpr (by omega))
  rw [htake, ← htagged, ← List.prefix_iff_eq_take.mp hbody] at hall
  simpa using hall

def allowed (domain : Domain) : Action → Bool
  | .ask _ nonce => domain.asked.all fun asked => asked.1 ≠ nonce
  | .reply _ stream | .serve stream => unforged domain stream
  | _ => true

theorem allowed_sound {action : Action} (h : allowed domain action = true) :
    domain.Allowed plain action := by
  cases action with
  | ask call nonce =>
    intro asked hasked
    simpa using List.all_eq_true.mp h asked hasked
  | reply nonce stream => exact unforged_sound h
  | serve stream => exact unforged_sound h
  | fails | acquire | check | revoke => trivial

def firstNonce : Nonce := ⟨List.replicate 16 1, rfl⟩

def secondNonce : Nonce := ⟨List.replicate 16 2, rfl⟩

def request (op : Op) (nonce : Nonce) (name : String) : Bytes :=
  plain.tagged (requestBody op nonce name)

def leaseActions : List Action :=
  [.ask (.acquire "a") firstNonce, .serve (request .acquire firstNonce "a"),
    .serve (request .acquire firstNonce "a"),
    .reply firstNonce (encodeReply plain firstNonce.bytes 2),
    .ask (.validate ⟨"a", 2⟩) secondNonce, .serve (request .check secondNonce ""),
    .reply secondNonce (encodeReply plain secondNonce.bytes 2)]

def leasedDomain : Domain := leaseActions.foldl (Domain.act plain) .start

/-- The replay moved the epoch to two, and the lease of the second move is found current. -/
theorem lease_honoured_replayed :
    leasedDomain.leases = [(some firstNonce, ⟨"a", 2⟩)] ∧
      Call.answered (.validate ⟨"a", 2⟩) plain secondNonce
          (encodeReply plain secondNonce.bytes 2) = .valid true ∧
      LeasesDistinct leasedDomain ∧
      HonouredWithin plain (traceOf (Domain.act plain) .start leaseActions) ∧
      RefusedLater plain (traceOf (Domain.act plain) .start leaseActions) leasedDomain := by
  have hallowed : (traceOf (Domain.act plain) .start leaseActions).all
      (fun taken => allowed taken.1 taken.2) = true := by
    decide +kernel
  have hrun : Run (Domain.Step plain) .start (traceOf (Domain.act plain) .start leaseActions)
      leasedDomain :=
    (Run.ofActions (Domain.act plain) .start leaseActions).guarded fun taken htaken =>
      allowed_sound (List.all_eq_true.mp hallowed taken htaken)
  exact ⟨by decide +kernel, by decide +kernel,
    lease_honoured_while_current hrun (by decide +kernel)⟩

end PlainWire

end LogicalWorks.Lease
