import Kilogram.Sync.Exchange

/-!
# Convergence of the anti-entropy sync

Rounds between two stores of one conversation end with both stores holding the union, in at most
sixty-four rounds.
-/

namespace Kilogram.Sync
open Kilogram Store Std Session
variable [Authority] {σ : Session} {a b a' b' : EventStore}

/-- The frames of all rounds, from what each side lacks at the start. -/
def Session.schedule (σ : Session) : Nat → List StoredAuthorizedEvent → List StoredAuthorizedEvent → List Frames
  | 0, _, _ => []
  | n + 1, toServer, toClient =>
    σ.frames toServer toClient ::
      if holdsBack toServer toClient then
        σ.schedule n (toServer.drop maxSyncEventsPerBatch) (toClient.drop maxSyncEventsPerBatch)
      else []

/-- Stores of one conversation that together fit an inventory. -/
structure Syncable (σ : Session) (a b : EventStore) : Prop where
  joined : Joined σ a b
  size : (σ.view a).length + (σ.missing b a).length ≤ maxInventoryEventIds

variable {a₁ : EventStore} {ys toServer toClient : List StoredAuthorizedEvent}

theorem Takes.trans {xs : List StoredAuthorizedEvent} (h : Takes σ a a₁ xs)
    (h' : Takes σ a₁ a' ys) : Takes σ a a' (xs ++ ys) := by
  refine ⟨?_, ?_, h'.holds⟩
  · intro id e
    simp only [h'.event, h.event, List.mem_append, or_and_right, exists_or, or_assoc]
  · intro id e
    rw [h'.authorization, h.authorization, List.mem_append, or_assoc]

theorem Takes.length_view (h : Takes σ a a' ys) (ha : Authorized a σ.membership) (hys : ys.Nodup)
    (hnew : ∀ y ∈ ys, a.event σ.membership.conversationId y.id = none) :
    (σ.view a').length = (σ.view a).length + ys.length := by
  rw [← List.length_append]
  apply List.Perm.length_eq
  have hnodup : (σ.view a ++ ys).Nodup := by
    refine List.Nodup.append (List.Nodup.of_map _ (nodup_of_ordered (ordered_ids (ordered_view σ a))))
      hys ?_
    intro y hy hy'
    have := (ha.authorization ((mem_view ha).mp hy)).1
    rw [hnew y hy'] at this
    simp at this
  rw [List.perm_ext_iff_of_nodup (List.Nodup.of_map _ (nodup_of_ordered (ordered_ids (ordered_view σ a')))) hnodup]
  intro y
  rw [mem_view h.holds.authorized, h.authorization, List.mem_append, mem_view ha]

omit [Authority] in
theorem nodup_missing (σ : Session) (a b : EventStore) : (σ.missing a b).Nodup :=
  List.Nodup.of_map _ (nodup_of_ordered (ordered_ids (ordered_missing σ a b)))

/-- What is left when both stores have taken a part of what they miss. -/
theorem Syncable.takes {m n : Nat} (h : Syncable σ a b) (ha : Takes σ a a' ((σ.missing b a).take m))
    (hb : Takes σ b b' ((σ.missing a b).take n)) : σ.missing b' a' = (σ.missing b a).drop m ∧
      σ.missing a' b' = (σ.missing a b).drop n ∧ Syncable σ a' b' := by
  have hmissing := h.joined.missing_takes ha hb fun x hx => List.mem_of_mem_take hx
  refine ⟨hmissing, h.joined.symm.missing_takes hb ha fun x hx => List.mem_of_mem_take hx, ?_, ?_⟩
  · exact h.joined.takes ha hb (fun y hy => mem_view_of_mem_missing (List.mem_of_mem_take hy))
      fun x hx => mem_view_of_mem_missing (List.mem_of_mem_take hx)
  · have hsize := h.size
    rw [ha.length_view h.joined.left.authorized ((nodup_missing σ b a).sublist (List.take_sublist _ _)) fun y hy =>
        ((mem_missing h.joined.right.authorized).mp (List.mem_of_mem_take hy)).2, hmissing, add_assoc,
      ← List.length_append, List.take_append_drop]
    exact hsize

/-- One round between syncable stores, and what is left afterwards. -/
theorem Syncable.round (h : Syncable σ a b) (hσ : Honest σ) :
    ∃ a' b', σ.round a b = .ok (a', b', σ.frames (σ.missing a b) (σ.missing b a),
        holdsBack (σ.missing a b) (σ.missing b a)) ∧
      Takes σ a a' ((σ.missing b a).take maxSyncEventsPerBatch) ∧
      Takes σ b b' ((σ.missing a b).take maxSyncEventsPerBatch) ∧
      σ.missing a' b' = (σ.missing a b).drop maxSyncEventsPerBatch ∧
      σ.missing b' a' = (σ.missing b a).drop maxSyncEventsPerBatch ∧ Syncable σ a' b' := by
  obtain ⟨a', b', hround, ha, hb⟩ := h.joined.round hσ (Nat.le_trans (Nat.le_add_right _ _) h.size)
  obtain ⟨hright, hleft, h'⟩ := h.takes ha hb
  exact ⟨a', b', hround, ha, hb, hleft, hright, h'⟩

omit [Authority] in
theorem not_holdsBack (h : holdsBack toServer toClient = false) :
    toServer.length ≤ maxSyncEventsPerBatch ∧ toClient.length ≤ maxSyncEventsPerBatch := by
  simpa [holdsBack] using h

/-- Enough rounds move everything that is missing. -/
theorem Syncable.rounds (hσ : Honest σ) (n : Nat) (h : Syncable σ a b)
    (hserver : (σ.missing a b).length ≤ maxSyncEventsPerBatch * (n + 1))
    (hclient : (σ.missing b a).length ≤ maxSyncEventsPerBatch * (n + 1)) :
    ∃ a' b', σ.rounds (n + 1) a b = .ok (a', b', σ.schedule (n + 1) (σ.missing a b) (σ.missing b a)) ∧
      Takes σ a a' (σ.missing b a) ∧ Takes σ b b' (σ.missing a b) := by
  induction n generalizing a b with
  | zero =>
    obtain ⟨a', b', hround, ha, hb, _, _, _⟩ := h.round hσ
    rw [zero_add, mul_one] at hserver hclient
    have hmore : holdsBack (σ.missing a b) (σ.missing b a) = false := by
      simp [holdsBack, hserver, hclient]
    rw [List.take_of_length_le hclient] at ha
    rw [List.take_of_length_le hserver] at hb
    refine ⟨a', b', ?_, ha, hb⟩
    rw [Session.rounds, Except.bind_of_ok hround, Session.schedule]
    simp only [hmore]
    rfl
  | succ n ih =>
    rw [mul_add_one] at hserver hclient
    obtain ⟨a₁, b₁, hround, ha, hb, hleft, hright, h₁⟩ := h.round hσ
    rw [Session.rounds, Except.bind_of_ok hround, Session.schedule]
    cases hmore : holdsBack (σ.missing a b) (σ.missing b a) with
    | false =>
      obtain ⟨hserver, hclient⟩ := not_holdsBack hmore
      rw [List.take_of_length_le hclient] at ha
      rw [List.take_of_length_le hserver] at hb
      exact ⟨a₁, b₁, rfl, ha, hb⟩
    | true =>
      obtain ⟨a', b', hrest, ha', hb'⟩ := ih h₁
        (by rw [hleft, List.length_drop]; omega) (by rw [hright, List.length_drop]; omega)
      rw [hright] at ha'
      rw [hleft] at hb'
      refine ⟨a', b', ?_, ?_, ?_⟩
      · refine (Except.bind_of_ok hrest _).trans ?_
        rw [hleft, hright]
        rfl
      · simpa only [List.take_append_drop] using ha.trans ha'
      · simpa only [List.take_append_drop] using hb.trans hb'

/-- A store that holds the events of both, with its own authorizations where it had some. -/
structure Union (σ : Session) (own other s : EventStore) : Prop where
  holds : Holds σ s
  event : ∀ {id e}, s.event σ.membership.conversationId id = some e ↔
    own.event σ.membership.conversationId id = some e ∨ other.event σ.membership.conversationId id = some e
  authorization : ∀ id, s.authorization σ.membership.conversationId id =
    (own.authorization σ.membership.conversationId id).or
      (other.authorization σ.membership.conversationId id)

theorem Joined.union (h : Joined σ a b) (ha : Takes σ a a' (σ.missing b a)) : Union σ a b a' := by
  refine ⟨ha.holds, ?_, ?_⟩
  · intro id e
    rw [ha.event]
    constructor
    · rintro (he | ⟨y, hy, rfl, rfl⟩)
      · exact .inl he
      · exact .inr (h.right.entry (mem_view_of_mem_missing hy)).1
    · rintro (he | he)
      · exact .inl he
      · cases hown : a.event σ.membership.conversationId id with
        | some e' => exact .inl (congrArg some (h.same hown he))
        | none =>
          obtain ⟨x, hx⟩ := Option.ne_none_iff_exists'.mp (h.right.readable id (by simp [he]))
          have hevent := (h.right.authorized.authorization hx).1
          refine .inr ⟨⟨id, x⟩, (mem_missing h.right.authorized).mpr ⟨hx, hown⟩, rfl, ?_⟩
          exact Option.some.inj (hevent.symm.trans he)
  · intro id
    apply Option.ext
    intro x
    rw [ha.authorization, mem_missing h.right.authorized, Option.or_eq_some_iff]
    apply or_congr_right
    constructor
    · rintro ⟨hx, hnone⟩
      refine ⟨?_, hx⟩
      cases hown : a.authorization σ.membership.conversationId id with
      | none => rfl
      | some y => cases (h.left.authorized.authorization hown).1.symm.trans hnone
    · rintro ⟨hnone, hx⟩
      refine ⟨hx, ?_⟩
      by_contra hne
      exact h.left.readable id hne hnone

def Session.Frames.Fits (f : Frames) : Prop :=
  f.diff.encode.length ≤ maxWireMessageBytes ∧ f.batch.encode.length ≤ maxWireMessageBytes

/-- The stores at the start of a round. -/
inductive Session.Reached (σ : Session) (a b : EventStore) : EventStore → EventStore → Prop where
  | start : Reached σ a b a b
  | next {a₁ b₁ a₂ b₂ : EventStore} {f : Frames} : Reached σ a b a₁ b₁ →
      σ.round a₁ b₁ = .ok (a₂, b₂, f, true) → Reached σ a b a₂ b₂

/-- Every round with something to move moves something, and the loop ends with the union on both
sides after frames that fit. -/
structure Converges (σ : Session) (a b : EventStore) : Prop where
  shrinks : ∀ {a₁ b₁}, σ.Reached a b a₁ b₁ → σ.missing a₁ b₁ ≠ [] ∨ σ.missing b₁ a₁ ≠ [] →
    ∃ a₂ b₂ f more, σ.round a₁ b₁ = .ok (a₂, b₂, f, more) ∧ (σ.missing a₂ b₂).length + (σ.missing b₂ a₂).length <
        (σ.missing a₁ b₁).length + (σ.missing b₁ a₁).length
  ends : ∃ a' b' frames, σ.rounds maxSyncRounds a b = .ok (a', b', frames) ∧
    (∀ f ∈ frames, f.Fits) ∧ Union σ a b a' ∧ Union σ b a b'

theorem Session.Reached.syncable {b₁ : EventStore} (h : σ.Reached a b a₁ b₁) (hσ : Honest σ)
    (hab : Syncable σ a b) : Syncable σ a₁ b₁ := by
  induction h with
  | start => exact hab
  | next _ hround ih =>
    obtain ⟨a', b', hround', _, _, _, _, h'⟩ := ih.round hσ
    rw [hround, Except.ok.injEq, Prod.mk.injEq, Prod.mk.injEq] at hround'
    obtain ⟨rfl, rfl, _⟩ := hround'
    exact h'

theorem frames_mem_schedule (σ : Session) (n : Nat) (toServer toClient : List StoredAuthorizedEvent) :
    σ.frames toServer toClient ∈ σ.schedule (n + 1) toServer toClient :=
  .head _

theorem Syncable.shrinks (h : Syncable σ a b) (hσ : Honest σ) (hne : σ.missing a b ≠ [] ∨ σ.missing b a ≠ []) :
    ∃ a' b' f more, σ.round a b = .ok (a', b', f, more) ∧ (σ.missing a' b').length + (σ.missing b' a').length <
        (σ.missing a b).length + (σ.missing b a).length := by
  obtain ⟨a', b', hround, _, _, hleft, hright, _⟩ := h.round hσ
  refine ⟨a', b', _, _, hround, ?_⟩
  rw [hleft, hright, List.length_drop, List.length_drop]
  have hpos : 0 < (σ.missing a b).length ∨ 0 < (σ.missing b a).length :=
    hne.imp List.length_pos_iff.mpr List.length_pos_iff.mpr
  simp only [maxSyncEventsPerBatch]
  omega

/-- Sixty-four rounds are enough for an inventory. -/
theorem Syncable.ends (h : Syncable σ a b) (hσ : Honest σ) : ∃ a' b', σ.rounds maxSyncRounds a b =
        .ok (a', b', σ.schedule maxSyncRounds (σ.missing a b) (σ.missing b a)) ∧
      Union σ a b a' ∧ Union σ b a b' := by
  have hsize := h.size
  have hleft : (σ.missing a b).length ≤ (σ.view a).length := List.length_filter_le _ _
  obtain ⟨a', b', hrounds, ha, hb⟩ := h.rounds hσ 63
    (by simp only [maxSyncEventsPerBatch, maxInventoryEventIds] at *; omega)
    (by simp only [maxSyncEventsPerBatch, maxInventoryEventIds] at *; omega)
  exact ⟨a', b', hrounds, h.joined.union ha, h.joined.symm.union hb⟩

theorem Converges.fits (h : Converges σ a b) (hσ : Honest σ) (hab : Syncable σ a b) :
    ∀ f ∈ σ.schedule maxSyncRounds (σ.missing a b) (σ.missing b a), f.Fits := by
  obtain ⟨a₁, b₁, frames, hok, hfits, _⟩ := h.ends
  obtain ⟨a', b', hrounds, _⟩ := hab.ends hσ
  rw [hok, Except.ok.injEq, Prod.mk.injEq, Prod.mk.injEq] at hrounds
  rw [← hrounds.2.2]
  exact hfits

/-- The sync converges exactly when the frames of the schedule fit. -/
theorem sync_converges_iff (hσ : Honest σ) (h : Syncable σ a b) : Converges σ a b ↔
      ∀ f ∈ σ.schedule maxSyncRounds (σ.missing a b) (σ.missing b a), f.Fits := by
  constructor
  · exact fun hconverges => hconverges.fits hσ h
  · intro hfits
    obtain ⟨a', b', hrounds, ha, hb⟩ := h.ends hσ
    exact ⟨fun hreached hne => (hreached.syncable hσ h).shrinks hσ hne, a', b', _, hrounds, hfits, ha, hb⟩

/-- A store with a batch of valid events, beside an empty one. -/
theorem syncable_of_batch {events : List AuthorizedEvent} (hlen : events.length ≤ maxInventoryEventIds)
    (hevents : ∀ e ∈ events, e.verifyForMembership σ.membership = .ok ())
    (hapart : (events.map AuthorizedEvent.event).Pairwise Distinct) :
    ∃ s, EventStore.putAuthorizedBatch ∅ σ.membership events = (s, .ok ()) ∧ Syncable σ ∅ s ∧
      (σ.missing s ∅).Perm (events.map fun e => ⟨e.event.eventId, e⟩) := by
  have hempty := authorized_empty σ.membership
  have hnone (c id : Id) : EventStore.event ∅ c id = none := by
    simp [EventStore.event, EventStore.directory, Directory.empty]
  have hnoauth (c id : Id) : EventStore.authorization ∅ c id = none := by
    simp [EventStore.authorization, EventStore.directory, Directory.empty]
  obtain ⟨s, hput, hs, hadds⟩ := putAuthorizedBatch_of_fresh hempty hevents
    (fun e _ => ⟨hnone _ _, fun h => absurd ((hnone _ _).symm.trans h) (by simp)⟩) hapart
  have hread := hadds.readable (readable_empty σ.membership.conversationId)
  have hperm : (σ.missing s ∅).Perm (events.map fun e => ⟨e.event.eventId, e⟩) := by
    rw [List.pairwise_map] at hapart
    have hnodup : (events.map fun e => StoredAuthorizedEvent.mk e.event.eventId e).Nodup := by
      rw [List.Nodup, List.pairwise_map]
      exact hapart.imp fun hd heq => hd.1 (congrArg StoredAuthorizedEvent.id heq)
    rw [List.perm_ext_iff_of_nodup (nodup_missing σ s ∅) hnodup]
    intro y
    simp only [mem_missing hs, hadds.authorization, hnoauth, hnone, List.mem_map]
    constructor
    · rintro ⟨h | ⟨hy, hid⟩, _⟩
      · simp at h
      · exact ⟨y.event, hy, by rw [hid]⟩
    · rintro ⟨e, he, rfl⟩
      exact ⟨.inr ⟨he, rfl⟩, trivial⟩
  refine ⟨s, hput, ⟨⟨⟨hempty, readable_empty _⟩, ⟨hs, hread⟩, ?_, ?_⟩, ?_⟩, hperm⟩
  · intro id e e' h
    cases (hnone _ _).symm.trans h
  · intro id id' e e' h
    cases (hnone _ _).symm.trans h
  · have hview : σ.view ∅ = [] := by
      simp [Session.view, EventStore.stored, EventStore.directory, Directory.empty]
    rw [hview, hperm.length_eq, List.length_map, List.length_nil, zero_add]
    exact hlen

/-- The events of a round are all in its answer. -/
theorem length_diff_ge (σ : Session) (toServer toClient : List StoredAuthorizedEvent)
    (hfew : toClient.length ≤ maxSyncEventsPerBatch) :
    (toClient.map fun y => y.event.encodedBytes.length).sum ≤ (σ.frames toServer toClient).diff.encode.length := by
  have hevents : (Postcard.list AuthorizedEvent.encodedBytes (toClient.map StoredAuthorizedEvent.event)).length ≥
        (toClient.map fun y => y.event.encodedBytes.length).sum := by
    rw [Postcard.list, List.length_append, List.length_flatMap, List.map_map]
    exact Nat.le_add_left _ _
  rw [SyncDiff.encode, Session.frames, SyncDiffContent.encode, Session.diffContent, List.take_of_length_le hfew]
  simp only [List.length_append]
  omega

/-- Two events of four mebibytes do not fit one answer. -/
theorem diff_exceeds_wire {e e' : AuthorizedEvent}
    (σ : Session) (hperm : toClient.Perm ([e, e'].map fun e => ⟨e.event.eventId, e⟩))
    (he : maxAccountDevices * maxRatchetCiphertextBytes < e.encodedBytes.length)
    (he' : maxAccountDevices * maxRatchetCiphertextBytes < e'.encodedBytes.length) :
    maxWireMessageBytes < (σ.frames toServer toClient).diff.encode.length := by
  have hfew : toClient.length ≤ maxSyncEventsPerBatch := by
    rw [hperm.length_eq]
    exact Nat.le_of_ble_eq_true rfl
  refine Nat.lt_of_lt_of_le ?_ (length_diff_ge σ toServer toClient hfew)
  rw [(hperm.map _).sum_eq]
  simp only [List.map_cons, List.map_nil, List.sum_cons, List.sum_nil]
  simp only [maxAccountDevices, maxRatchetCiphertextBytes] at he he'
  simp only [maxWireMessageBytes]
  omega

end Kilogram.Sync

namespace Kilogram.Sync
open Kilogram Store Std Session
local instance plainAuthority : Authority := .plain

def bulkSession : Session := ⟨1, ⟨1, [3], []⟩, 0, 0, 0⟩

/-- Thirty-two devices with the largest ciphertext. -/
def bulkRecipients : List RatchetRecipient := (List.range' 1 maxAccountDevices).map fun i =>
    ⟨BitVec.ofNat 256 i, ⟨1, 0, List.replicate maxRatchetCiphertextBytes 0⟩⟩

def bulkEvent (sequence : Nat) : AuthorizedEvent where
  event :=
    { content :=
        { version := eventVersion, conversationId := 1, authorDeviceId := 0
          authorSequence := UInt64.ofNat sequence, parents := []
          payload := .ratchetText ⟨bulkRecipients.map RatchetRecipient.deviceId, []⟩ ⟨0, []⟩
            bulkRecipients }
      signature := Bytes.ofNat 32 sequence }
  authorCertificate := ⟨0, 3, []⟩
  authorAuthoritySnapshot := ⟨[]⟩

theorem bulkRecipients_valid : ∀ r ∈ bulkRecipients, checkRecipient 0 r = .ok () := by
  intro r hr
  obtain ⟨i, hi, rfl⟩ := List.mem_map.mp hr
  have hne : BitVec.ofNat 256 i ≠ 0 := by
    rw [List.mem_range'] at hi
    obtain ⟨j, hj, rfl⟩ := hi
    simp only [maxAccountDevices] at hj
    intro h
    have := congrArg BitVec.toNat h
    simp at this
    omega
  simp only [checkRecipient, RatchetCiphertext.validate, Except.ok_iff]
  refine ⟨(), hne, (), by decide, (), ?_, by decide⟩
  rw [List.replicate_eq_nil_iff, List.length_replicate, not_or]
  exact ⟨by decide, lt_irrefl _⟩

theorem bulkEvent_verify (sequence : Nat) :
    (bulkEvent sequence).verifyForMembership bulkSession.membership = .ok () := by
  have hpayload : validatePayload 0 (bulkEvent sequence).event.content.payload = .ok () := by
    simp only [bulkEvent, validatePayload, Except.ok_iff]
    refine ⟨(), by decide, (), by decide, (), by decide, (), by decide, (), by decide, (),
      Except.forM_eq_ok.mpr bulkRecipients_valid, (), by decide +kernel, by simp⟩
  have hverify : (bulkEvent sequence).event.verify = .ok () := by
    simp only [SignedEvent.verify, validateContent, Except.ok_iff]
    exact ⟨(), ⟨(), not_not.mpr rfl, (), Nat.not_lt.mpr (Nat.zero_le _), (),
      not_not.mpr List.nodup_nil, hpayload⟩, Bool.true_eq_false_eq_False⟩
  simp only [AuthorizedEvent.verifyForMembership, AuthorizedEvent.verifyAuthor, Except.ok_iff]
  exact ⟨(), ⟨(), hverify, (), not_not.mpr rfl, Bool.true_eq_false_eq_False⟩, (), not_not.mpr rfl, rfl⟩

theorem bulkEvent_eventId (sequence : Nat) : (bulkEvent sequence).event.eventId = BitVec.ofNat 256 sequence := by
  -- The signature is the last thirty-two bytes of the event.
  change BitVec.ofNat 256 (Bytes.toNat (eventIdDomain ++ ((bulkEvent sequence).event.content.encode ++
    (Postcard.varint _ ++ Bytes.ofNat 32 sequence)))) = _
  rw [← List.append_assoc, ← List.append_assoc, Bytes.toNat_append, Bytes.length_ofNat, Bytes.toNat_ofNat]
  apply BitVec.eq_of_toNat_eq
  rw [BitVec.toNat_ofNat, BitVec.toNat_ofNat]
  have hpow : (256 : Nat) ^ 32 = 2 ^ 256 := by norm_num
  rw [hpow, Nat.mul_add_mod', Nat.mod_mod]

theorem length_bulkEvent_gt (sequence : Nat) :
    maxAccountDevices * maxRatchetCiphertextBytes < (bulkEvent sequence).encodedBytes.length := by
  have hrecipient : ∀ r ∈ bulkRecipients, maxRatchetCiphertextBytes ≤ r.encode.length := by
    intro r hr
    obtain ⟨i, _, rfl⟩ := List.mem_map.mp hr
    rw [RatchetRecipient.encode, Postcard.bytes, List.length_append, List.length_append,
      List.length_append, List.length_replicate]
    omega
  have hlist : maxAccountDevices * maxRatchetCiphertextBytes ≤
      (Postcard.list RatchetRecipient.encode bulkRecipients).length := by
    rw [Postcard.list, List.length_append, List.length_flatMap]
    refine Nat.le_trans ?_ (Nat.le_add_left _ _)
    have := List.card_nsmul_le_sum (bulkRecipients.map fun r => r.encode.length)
      maxRatchetCiphertextBytes (List.forall_mem_map.mpr hrecipient)
    simpa [bulkRecipients] using this
  rw [AuthorizedEvent.encodedBytes, SignedEvent.encode, EventContent.encode, bulkEvent, EventPayload.encode]
  simp only [List.length_append, List.length_singleton]
  omega

theorem bulkEvents_apart : ([bulkEvent 0, bulkEvent 1].map AuthorizedEvent.event).Pairwise Distinct := by
  simp only [List.map_cons, List.map_nil, List.pairwise_cons, List.mem_singleton, forall_eq,
    List.not_mem_nil, false_implies, implies_true, List.Pairwise.nil, and_true]
  refine ⟨?_, by decide⟩
  rw [bulkEvent_eventId, bulkEvent_eventId]
  decide

theorem bulkSession_honest : Honest bulkSession := ⟨fun _ _ => rfl, rfl, rfl⟩

/-- A server that has stored two of these events, and a client without any. -/
theorem bulkEvents_syncable : ∃ s, EventStore.putAuthorizedBatch ∅ bulkSession.membership [bulkEvent 0, bulkEvent 1] =
        (s, .ok ()) ∧ Syncable bulkSession ∅ s ∧ (bulkSession.missing s ∅).Perm
          ([bulkEvent 0, bulkEvent 1].map fun e => ⟨e.event.eventId, e⟩) := by
  refine syncable_of_batch (Nat.le_of_ble_eq_true rfl) ?_ bulkEvents_apart
  intro e he
  rw [List.mem_cons, List.mem_singleton] at he
  rcases he with he | he
  · rw [he, bulkEvent_verify]
  · rw [he, bulkEvent_verify]

theorem sync_converges_iff_bulk : ∃ s, Honest bulkSession ∧ Syncable bulkSession ∅ s ∧
      (Converges bulkSession ∅ s ↔ ∀ f ∈ bulkSession.schedule maxSyncRounds
        (bulkSession.missing ∅ s) (bulkSession.missing s ∅), f.Fits) := by
  obtain ⟨s, _, hsync, _⟩ := bulkEvents_syncable
  exact ⟨s, bulkSession_honest, hsync, sync_converges_iff bulkSession_honest hsync⟩

/-- The first answer of the server carries both events and exceeds the limit of the wire. -/
theorem bulk_diff_exceeds_wire :
    ∃ s, EventStore.putAuthorizedBatch ∅ bulkSession.membership [bulkEvent 0, bulkEvent 1] =
        (s, .ok ()) ∧ Syncable bulkSession ∅ s ∧
      maxWireMessageBytes < (bulkSession.frames (bulkSession.missing ∅ s)
        (bulkSession.missing s ∅)).diff.encode.length ∧ ¬ Converges bulkSession ∅ s := by
  obtain ⟨s, hput, hsync, hperm⟩ := bulkEvents_syncable
  have hlen : maxWireMessageBytes < (bulkSession.frames (bulkSession.missing ∅ s)
      (bulkSession.missing s ∅)).diff.encode.length :=
    diff_exceeds_wire _ hperm (length_bulkEvent_gt 0) (length_bulkEvent_gt 1)
  refine ⟨s, hput, hsync, hlen, fun h => ?_⟩
  have hfits := h.fits bulkSession_honest hsync _ (frames_mem_schedule _ 63 _ _)
  exact absurd hfits.1 (Nat.not_le.mpr hlen)

end Kilogram.Sync
