import Kilogram.Sync.Rounds
import Kilogram.Store.Passes

/-!
# One round of the anti-entropy sync

Between two stores that can stand in one conversation, a round moves the first sixty-four events
that each side lacks, in the order of their ids, and nothing else.
-/

namespace Kilogram.Sync
open Kilogram Store Std Session
open Except (ok_iff bind_eq_ok bind_of_ok failIf_of_not mapError_eq_ok forM_eq_ok)
open List (foldlM_cons length_map map_map map_take mem_map mem_of_mem_take pairwise_map take_sublist)
variable [Authority] {σ : Session} {a b s : EventStore}
variable {ids : List Id} {y : StoredAuthorizedEvent} {ys : List StoredAuthorizedEvent}

omit [Authority] in
theorem toList_ofList (h : ids.Pairwise fun a b => compare a b = .lt) : (TreeSet.ofList ids).toList = ids := by
  refine Maps.eq_of_ordered (f := fun id : Id => id) TreeSet.ordered_toList h ?_
  intro id
  rw [TreeSet.mem_toList, TreeSet.mem_ofList, List.contains_iff_mem]

omit [Authority] in
theorem mergeSort_of_ordered (h : ids.Pairwise fun a b => compare a b = .lt) :
    (ids.mergeSort fun a b => a ≤ b) = ids := by
  apply List.mergeSort_of_pairwise
  refine h.imp ?_
  intro x y hxy
  exact decide_eq_true (BitVec.le_of_lt (compareOfLessAndEq_eq_lt.mp hxy))

omit [Authority] in
theorem nodup_of_ordered (h : ids.Pairwise fun a b => compare a b = .lt) : ids.Nodup :=
  h.imp fun hlt heq => absurd (heq ▸ hlt) (by simp)

omit [Authority] in
theorem foldlM_validateEventId (seen : List Id) (h : ids.Nodup) (hseen : ∀ id ∈ ids, id ∉ seen) :
    ∃ seen', ids.foldlM validateEventId seen = .ok seen' := by
  induction ids generalizing seen with
  | nil => exact ⟨seen, rfl⟩
  | cons id ids ih =>
    obtain ⟨hid, hnodup⟩ := List.nodup_cons.mp h
    rw [foldlM_cons, validateEventId, bind_of_ok (failIf_of_not (hseen id (.head _)) _)]
    refine ih (id :: seen) hnodup fun x hx => ?_
    rw [List.mem_cons, not_or]
    exact ⟨fun heq => hid (heq ▸ hx), hseen x (List.mem_cons_of_mem id hx)⟩

omit [Authority] in
theorem validateEventIds_of_nodup {maximum : Nat} (h : ids.Nodup)
    (hlen : ids.length ≤ maximum) : validateEventIds ids maximum = .ok () := by
  obtain ⟨seen, hseen⟩ := foldlM_validateEventId [] h (by simp)
  rw [validateEventIds, bind_of_ok (failIf_of_not (Nat.not_lt.mpr hlen) _), hseen]
  rfl

variable {conversation : Id} {events : List AuthorizedEvent} {a' b' : EventStore}
  {xs : List StoredAuthorizedEvent}

theorem foldlM_validateEvent {seen : List Id}
    (hevents : ∀ e ∈ events, e.verifyAuthor = .ok () ∧ e.event.conversationId = conversation) :
    events.foldlM (validateEvent conversation) seen = (events.map (·.event.eventId)).foldlM validateEventId seen := by
  induction events generalizing seen with
  | nil => rfl
  | cons e rest ih =>
    obtain ⟨hverify, hconv⟩ := hevents e (.head _)
    have hstep : validateEvent conversation seen e = validateEventId seen e.event.eventId := by
      rw [validateEvent, bind_of_ok hverify, bind_of_ok (failIf_of_not (not_not.mpr hconv) _), validateEventId]
    rw [foldlM_cons, List.map_cons, foldlM_cons, hstep]
    exact bind_congr fun seen' => ih fun x hx => hevents x (List.mem_cons_of_mem e hx)

theorem validateEvents_of_nodup
    (hevents : ∀ e ∈ events, e.verifyAuthor = .ok () ∧ e.event.conversationId = conversation)
    (hnodup : (events.map (·.event.eventId)).Nodup) (hlen : events.length ≤ maxSyncEventsPerBatch) :
    validateEvents conversation events = .ok () := by
  obtain ⟨seen, hseen⟩ := foldlM_validateEventId [] hnodup (by simp)
  rw [validateEvents, bind_of_ok (failIf_of_not (Nat.not_lt.mpr hlen) _), foldlM_validateEvent hevents, hseen]
  rfl

/-- A session of two sides that follow the protocol. -/
structure Honest (σ : Session) : Prop where
  signs : ∀ device message, Authority.verify device message (Authority.sign device message) = true
  membership : σ.membership.verify = .ok ()
  conversation : σ.membership.conversationId = σ.conversationId

/-- The store holds valid events, each with its authorization. -/
structure Holds (σ : Session) (s : EventStore) : Prop where
  authorized : Authorized s σ.membership
  readable : Readable s σ.membership.conversationId

/-- The events of the conversation in a store, in the order of their ids. -/
def Session.view (σ : Session) (s : EventStore) : List StoredAuthorizedEvent :=
  (s.stored σ.membership.conversationId).filterMap fun x =>
    (s.authorization σ.membership.conversationId x.id).map (StoredAuthorizedEvent.mk x.id)

/-- What the first store has and the second one lacks. -/
def Session.missing (σ : Session) (a b : EventStore) : List StoredAuthorizedEvent :=
  (σ.view a).filter fun y => b.event σ.membership.conversationId y.id = none

theorem mem_view (h : Authorized s σ.membership) :
    y ∈ σ.view s ↔ s.authorization σ.membership.conversationId y.id = some y.event := by
  simp only [Session.view, List.mem_filterMap, Option.map_eq_some_iff]
  constructor
  · rintro ⟨x, _, e, he, rfl⟩
    exact he
  · intro hy
    exact ⟨⟨y.id, y.event.event⟩, mem_stored.mpr (h.authorization hy).1, y.event, hy, rfl⟩

omit [Authority] in
theorem ordered_stored (s : EventStore) (c : Id) : (s.stored c).Pairwise fun x y => compare x.id y.id = .lt := by
  rw [EventStore.stored, pairwise_map]
  exact TreeMap.ordered_keys_toList

omit [Authority] in
theorem ordered_view (σ : Session) (s : EventStore) : Ordered (σ.view s) := by
  refine List.Pairwise.filterMap _ ?_ (ordered_stored s σ.membership.conversationId)
  intro x x' hlt y hy y' hy'
  rw [Option.map_eq_some_iff] at hy hy'
  obtain ⟨e, _, rfl⟩ := hy
  obtain ⟨e', _, rfl⟩ := hy'
  exact hlt

theorem Holds.load (h : Holds σ s) (hσ : Honest σ) :
    s.loadAuthorizedConversation σ.conversationId σ.membership = .ok (σ.view s) := by
  rw [← hσ.conversation]
  refine load_eq_ok.mpr ⟨(h.authorized.entitled_iff hσ.membership).mpr h.readable, ordered_view σ s, ?_⟩
  intro y
  rw [mem_view h.authorized]
  exact ⟨fun hy => ⟨(h.authorized.authorization hy).1, hy⟩, fun hy => hy.2⟩

theorem Holds.inventory (h : Holds σ s) (hσ : Honest σ) :
    σ.inventory s = .ok ((σ.view s).map StoredAuthorizedEvent.id) := by
  rw [Session.inventory, h.load hσ]
  rfl

omit [Authority] in
theorem ordered_ids (h : Ordered ys) : (ys.map StoredAuthorizedEvent.id).Pairwise fun a b => compare a b = .lt :=
  pairwise_map.mpr h

theorem Holds.eventsById (h : Holds σ s) (hσ : Honest σ) (ys : List StoredAuthorizedEvent)
    (hys : ∀ y ∈ ys, y ∈ σ.view s) :
    σ.eventsById s (ys.map StoredAuthorizedEvent.id) = .ok (ys.map StoredAuthorizedEvent.event) := by
  rw [Session.eventsById, h.load hσ, authorizedEventsById, bind_of_ok rfl,
    Except.mapM_eq_ok, List.forall₂_map_left_iff, List.forall₂_map_right_iff, List.forall₂_same]
  intro y hy
  have hfind : (σ.view s).find? (·.id = y.id) = some y := by
    cases hf : (σ.view s).find? (·.id = y.id) with
    | none =>
      have := List.find?_eq_none.mp hf y (hys y hy)
      simp at this
    | some x =>
      have hid : x.id = y.id := by simpa using List.find?_some hf
      have hx := (mem_view h.authorized).mp (List.mem_of_find?_eq_some hf)
      have hy := (mem_view h.authorized).mp (hys y hy)
      rw [hid] at hx
      cases x
      cases y
      simp_all
  rw [requestEvent, hfind]
  rfl

theorem mem_missing (h : Authorized a σ.membership) :
    y ∈ σ.missing a b ↔ a.authorization σ.membership.conversationId y.id = some y.event ∧
      b.event σ.membership.conversationId y.id = none := by
  simp only [Session.missing, List.mem_filter, mem_view h, decide_eq_true_eq]

omit [Authority] in
theorem ordered_missing (σ : Session) (a b : EventStore) : Ordered (σ.missing a b) := (ordered_view σ a).filter _

/-- The difference of the inventories names what is missing. -/
theorem difference_view (a : EventStore) (hb : Holds σ b) :
    Session.difference ((σ.view a).map StoredAuthorizedEvent.id)
      ((σ.view b).map StoredAuthorizedEvent.id) = (σ.missing a b).map StoredAuthorizedEvent.id := by
  rw [Session.difference, toList_ofList (ordered_ids (ordered_view σ a)), List.filter_map, Session.missing]
  congr 1
  apply List.filter_congr
  intro y _
  rw [Function.comp_apply, decide_eq_decide, mem_map]
  constructor
  · intro hnot
    by_contra hne
    obtain ⟨e, he⟩ := Option.ne_none_iff_exists'.mp (hb.readable y.id hne)
    exact hnot ⟨⟨y.id, e⟩, (mem_view hb.authorized).mpr he, rfl⟩
  · rintro hnone ⟨x, hx, hid⟩
    have := (hb.authorized.authorization ((mem_view hb.authorized).mp hx)).1
    rw [hid, hnone] at this
    simp at this

/-- Two stores whose events can stand in one conversation. -/
structure Joined (σ : Session) (a b : EventStore) : Prop where
  left : Holds σ a
  right : Holds σ b
  same : ∀ {id e e'}, a.event σ.membership.conversationId id = some e →
    b.event σ.membership.conversationId id = some e' → e = e'
  position : ∀ {id id' e e'}, a.event σ.membership.conversationId id = some e →
    b.event σ.membership.conversationId id' = some e' → e.position = e'.position → id = id'

theorem Joined.symm (h : Joined σ a b) : Joined σ b a := ⟨h.right, h.left, fun hb ha => (h.same ha hb).symm,
    fun hb ha hp => (h.position ha hb hp.symm).symm⟩

theorem Holds.entry (h : Holds σ s) (hy : y ∈ σ.view s) :
    s.event σ.membership.conversationId y.id = some y.event.event ∧ y.event.event.eventId = y.id ∧
      y.event.verifyForMembership σ.membership = .ok () := by
  obtain ⟨hevent, hmember⟩ := h.authorized.authorization ((mem_view h.authorized).mp hy)
  exact ⟨hevent, (h.authorized.files.event hevent).2.1, hmember⟩

omit [Authority] in
theorem mem_view_of_mem_missing (h : y ∈ σ.missing a b) : y ∈ σ.view a := List.mem_of_mem_filter h

theorem Joined.fresh (h : Joined σ a b) (hy : y ∈ σ.missing b a) : Fresh a σ.membership y.event.event := by
  obtain ⟨hevent, hid, _⟩ := h.right.entry (mem_view_of_mem_missing hy)
  have hnone := ((mem_missing h.right.authorized).mp hy).2
  refine ⟨by rw [hid, hnone], ?_⟩
  intro id e he hpos
  rw [h.position he hevent hpos, hnone] at he
  simp at he

theorem Holds.distinct (h : Holds σ s) (hys : ys.Sublist (σ.view s)) :
    ((ys.map StoredAuthorizedEvent.event).map AuthorizedEvent.event).Pairwise Distinct := by
  rw [map_map, pairwise_map]
  refine ((ordered_view σ s).sublist hys).imp_of_mem ?_
  intro x y hx hy hlt
  obtain ⟨hx, hxid, _⟩ := h.entry (hys.subset hx)
  obtain ⟨hy, hyid, _⟩ := h.entry (hys.subset hy)
  have hne : x.id ≠ y.id := fun heq => absurd (heq ▸ hlt) (by simp)
  refine ⟨?_, fun hpos => hne (h.authorized.files.position hx hy hpos)⟩
  rw [Function.comp_apply, Function.comp_apply, hxid, hyid]
  exact hne

/-- The second store is the first one with the given entries. -/
structure Takes (σ : Session) (a a' : EventStore) (ys : List StoredAuthorizedEvent) : Prop where
  event : ∀ {id e}, a'.event σ.membership.conversationId id = some e ↔
    a.event σ.membership.conversationId id = some e ∨ ∃ y ∈ ys, y.id = id ∧ y.event.event = e
  authorization : ∀ {id e}, a'.authorization σ.membership.conversationId id = some e ↔
    a.authorization σ.membership.conversationId id = some e ∨ ⟨id, e⟩ ∈ ys
  holds : Holds σ a'

theorem Joined.put (h : Joined σ a b) (hys : ys.Sublist (σ.missing b a)) :
    ∃ a', a.putAuthorizedBatch σ.membership (ys.map StoredAuthorizedEvent.event) = (a', .ok ()) ∧
      Takes σ a a' ys := by
  have hview : ys.Sublist (σ.view b) := hys.trans List.filter_sublist
  have hentry {y : StoredAuthorizedEvent} (hy : y ∈ ys) := h.right.entry (hview.subset hy)
  obtain ⟨a', hput, hauthorized, hadds⟩ := putAuthorizedBatch_of_fresh h.left.authorized
    (List.forall_mem_map.mpr fun y hy => (hentry hy).2.2)
    (List.forall_mem_map.mpr fun y hy => h.fresh (hys.subset hy)) (h.right.distinct hview)
  have hevent {id : Id} {e : SignedEvent} : a'.event σ.membership.conversationId id = some e ↔
      a.event σ.membership.conversationId id = some e ∨ ∃ y ∈ ys, y.id = id ∧ y.event.event = e := by
    simp only [hadds.event, mem_map, exists_exists_and_eq_and]
    refine or_congr_right (exists_congr fun y => and_congr_right fun hy => ?_)
    rw [(hentry hy).2.1]
  have hauthorization {id : Id} {e : AuthorizedEvent} : a'.authorization σ.membership.conversationId id = some e ↔
        a.authorization σ.membership.conversationId id = some e ∨ ⟨id, e⟩ ∈ ys := by
    rw [hadds.authorization, mem_map]
    apply or_congr_right
    constructor
    · rintro ⟨⟨y, hy, rfl⟩, rfl⟩
      rwa [(hentry hy).2.1]
    · intro hy
      exact ⟨⟨_, hy, rfl⟩, (hentry hy).2.1⟩
  exact ⟨a', hput, hevent, hauthorization, hauthorized, hadds.readable h.left.readable⟩

theorem Takes.none_iff (h : Takes σ a a' ys) {id : Id} : a'.event σ.membership.conversationId id = none ↔
      a.event σ.membership.conversationId id = none ∧ ∀ y ∈ ys, y.id ≠ id := by
  simp only [Option.eq_none_iff_forall_ne_some, ne_eq, h.event, not_or, not_exists, not_and]
  constructor
  · intro hn
    exact ⟨fun e => (hn e).1, fun y hy hid => (hn _).2 y hy hid rfl⟩
  · rintro ⟨hn, hys⟩ e
    exact ⟨hn e, fun y hy hid => absurd hid (hys y hy)⟩

/-- After an exchange of missing entries the stores still belong together. -/
theorem Joined.takes (h : Joined σ a b) (ha : Takes σ a a' ys) (hb : Takes σ b b' xs) (hys : ∀ y ∈ ys, y ∈ σ.view b)
    (hxs : ∀ x ∈ xs, x ∈ σ.view a) : Joined σ a' b' := by
  have hfrom {id : Id} {e : SignedEvent} (he : a'.event σ.membership.conversationId id = some e) :
      a.event σ.membership.conversationId id = some e ∨ b.event σ.membership.conversationId id = some e := by
    refine (ha.event.mp he).imp_right ?_
    rintro ⟨y, hy, rfl, rfl⟩
    exact (h.right.entry (hys y hy)).1
  have hfrom' {id : Id} {e : SignedEvent} (he : b'.event σ.membership.conversationId id = some e) :
      a.event σ.membership.conversationId id = some e ∨ b.event σ.membership.conversationId id = some e := by
    refine (hb.event.mp he).symm.imp_left ?_
    rintro ⟨x, hx, rfl, rfl⟩
    exact (h.left.entry (hxs x hx)).1
  refine ⟨ha.holds, hb.holds, ?_, ?_⟩
  · intro id e e' he he'
    rcases hfrom he with he | he <;> rcases hfrom' he' with he' | he'
    · exact Option.some.inj (he.symm.trans he')
    · exact h.same he he'
    · exact (h.same he' he).symm
    · exact Option.some.inj (he.symm.trans he')
  · intro id id' e e' he he' hpos
    rcases hfrom he with he | he <;> rcases hfrom' he' with he' | he'
    · exact h.left.authorized.files.position he he' hpos
    · exact h.position he he' hpos
    · exact h.symm.position he he' hpos
    · exact h.right.authorized.files.position he he' hpos

theorem Joined.missing_takes {n : Nat}
    (h : Joined σ a b) (ha : Takes σ a a' ((σ.missing b a).take n)) (hb : Takes σ b b' xs)
    (hxs : ∀ x ∈ xs, x ∈ σ.missing a b) : σ.missing b' a' = (σ.missing b a).drop n := by
  have hordered := ordered_missing σ b a
  refine Maps.eq_of_ordered (ordered_missing σ b' a') (hordered.sublist (List.drop_sublist n _)) ?_
  intro y
  have hsplit : y ∈ σ.missing b a ↔ y ∈ (σ.missing b a).take n ∨ y ∈ (σ.missing b a).drop n := by
    rw [← List.mem_append, List.take_append_drop]
  have hapart : ∀ x ∈ (σ.missing b a).take n, ∀ y ∈ (σ.missing b a).drop n, x.id ≠ y.id := by
    rw [Ordered, ← List.take_append_drop n (σ.missing b a), List.pairwise_append] at hordered
    intro x hx y hy heq
    exact absurd (heq ▸ hordered.2.2 x hx y hy) (by simp)
  rw [mem_missing hb.holds.authorized, hb.authorization, ha.none_iff]
  constructor
  · rintro ⟨hy | hy, hnone, hnot⟩
    · rcases hsplit.mp ((mem_missing h.right.authorized).mpr ⟨hy, hnone⟩) with hy | hy
      · exact absurd rfl (hnot y hy)
      · exact hy
    · have hview := mem_view_of_mem_missing (hxs _ hy)
      cases (h.left.entry hview).1.symm.trans hnone
  · intro hy
    obtain ⟨hauth, hnone⟩ := (mem_missing h.right.authorized).mp (hsplit.mpr (Or.inr hy))
    exact ⟨Or.inl hauth, hnone, fun x hx => hapart x hx y hy⟩

/-- Whether one side has to hold something back. -/
def holdsBack (toServer toClient : List StoredAuthorizedEvent) : Bool :=
  toServer.length > maxSyncEventsPerBatch ∨ toClient.length > maxSyncEventsPerBatch

def Session.diffContent (σ : Session) (toServer toClient : List StoredAuthorizedEvent) : SyncDiffContent where
  conversationId := σ.conversationId
  responderDeviceId := σ.server
  sessionBinding := σ.sessionBinding
  requestedEventIds := (toServer.take maxSyncEventsPerBatch).map StoredAuthorizedEvent.id
  events := (toClient.take maxSyncEventsPerBatch).map StoredAuthorizedEvent.event
  moreAvailable := holdsBack toServer toClient

/-- The frames of a round, from what each side lacks. -/
def Session.frames (σ : Session) (toServer toClient : List StoredAuthorizedEvent) : Frames where
  diff := ⟨σ.diffContent toServer toClient, Authority.sign σ.server
    (diffSignatureDomain ++ (σ.diffContent toServer toClient).encode)⟩
  batch := ⟨σ.conversationId, (toServer.take maxSyncEventsPerBatch).map StoredAuthorizedEvent.event⟩

def Session.serverRound (σ : Session) (toServer toClient : List StoredAuthorizedEvent) : ServerInventoryRound where
  conversationId := σ.conversationId
  requestedEventIds := (toServer.take maxSyncEventsPerBatch).map StoredAuthorizedEvent.id
  sentEvents := ((toClient.take maxSyncEventsPerBatch).map StoredAuthorizedEvent.event).length
  moreAvailable := holdsBack toServer toClient
  diff := (σ.frames toServer toClient).diff

def Session.clientRound (σ : Session) (toServer toClient : List StoredAuthorizedEvent) : ClientBatchRound where
  batch := (σ.frames toServer toClient).batch
  sentEventIds := (toServer.take maxSyncEventsPerBatch).map (·.event.event.eventId)
  receivedEventIds := (toClient.take maxSyncEventsPerBatch).map (·.event.event.eventId)
  moreAvailable := holdsBack toServer toClient

def Session.inventoryContent (σ : Session) (s : EventStore) : SyncInventoryContent where
  conversationId := σ.conversationId
  requesterDeviceId := σ.client
  sessionBinding := σ.sessionBinding
  eventIds := (σ.view s).map StoredAuthorizedEvent.id

def Session.signedInventory (σ : Session) (s : EventStore) : SignedSyncInventory :=
  ⟨σ.inventoryContent s, Authority.sign σ.client
    (inventorySignatureDomain ++ (σ.inventoryContent s).encode)⟩

omit [Authority] in
theorem validate_view (hsize : (σ.view s).length ≤ maxInventoryEventIds) :
    validateEventIds ((σ.view s).map StoredAuthorizedEvent.id) maxInventoryEventIds = .ok () :=
  validateEventIds_of_nodup (nodup_of_ordered (ordered_ids (ordered_view σ s)))
    (by rwa [length_map])

theorem Holds.beginRound (h : Holds σ a) (hσ : Honest σ) (hsize : (σ.view a).length ≤ maxInventoryEventIds) :
    σ.beginRound a = .ok (σ.signedInventory a, (σ.view a).map StoredAuthorizedEvent.id) := by
  have hsign : SignedSyncInventory.sign σ.client σ.conversationId σ.sessionBinding
      ((σ.view a).map StoredAuthorizedEvent.id) = .ok (σ.signedInventory a) := by
    rw [SignedSyncInventory.sign, mergeSort_of_ordered (ordered_ids (ordered_view σ a)),
      bind_of_ok (validate_view hsize)]
    rfl
  simp only [Session.beginRound, authorization, store, protocol, ok_iff, mapError_eq_ok, not_not]
  exact ⟨(), hσ.membership, (), hσ.conversation, _, h.inventory hσ, _, hsign, rfl⟩

/-- A part of what is missing passes the checks on the events of a message. -/
theorem Holds.validateEvents (h : Holds σ s) (hσ : Honest σ)
    (hys : ys.Sublist (σ.view s)) (hlen : ys.length ≤ maxSyncEventsPerBatch) :
    validateEvents σ.conversationId (ys.map StoredAuthorizedEvent.event) = .ok () := by
  have hentry {y : StoredAuthorizedEvent} (hy : y ∈ ys) := h.entry (hys.subset hy)
  apply validateEvents_of_nodup
  · intro e he
    obtain ⟨y, hy, rfl⟩ := mem_map.mp he
    obtain ⟨hverify, hconv⟩ := verifyAuthor_of_membership (hentry hy).2.2
    exact ⟨hverify, hconv.symm.trans hσ.conversation⟩
  · have hdistinct := h.distinct hys
    rw [map_map, pairwise_map] at hdistinct
    rw [map_map, List.Nodup, pairwise_map]
    exact hdistinct.imp fun hd => hd.1
  · rwa [length_map]

theorem Joined.validateDiffContent (h : Joined σ a b) (hσ : Honest σ) :
    validateDiffContent (σ.diffContent (σ.missing a b) (σ.missing b a)) = .ok () := by
  have hids : validateEventIds (((σ.missing a b).take maxSyncEventsPerBatch).map
      StoredAuthorizedEvent.id) maxSyncEventsPerBatch = .ok () := by
    apply validateEventIds_of_nodup
    · apply nodup_of_ordered (ordered_ids _)
      exact (ordered_missing σ a b).sublist (take_sublist _ _)
    · rw [length_map]
      exact List.length_take_le _ _
  have hevents := h.right.validateEvents hσ ((take_sublist maxSyncEventsPerBatch _).trans List.filter_sublist)
    (List.length_take_le _ (σ.missing b a))
  exact (bind_of_ok hids _).trans hevents

theorem Joined.planSync (h : Joined σ a b) (hσ : Honest σ) :
    σ.planSync b ((σ.view a).map StoredAuthorizedEvent.id) maxSyncEventsPerBatch =
      .ok ⟨((σ.missing a b).take maxSyncEventsPerBatch).map StoredAuthorizedEvent.id,
        ((σ.missing b a).take maxSyncEventsPerBatch).map StoredAuthorizedEvent.event,
        holdsBack (σ.missing a b) (σ.missing b a)⟩ := by
  have hevents := h.right.eventsById hσ ((σ.missing b a).take maxSyncEventsPerBatch)
    fun y hy => mem_view_of_mem_missing (mem_of_mem_take hy)
  rw [map_take] at hevents
  rw [Session.planSync, bind_of_ok (h.right.inventory hσ)]
  simp only [difference_view a h.right, difference_view b h.left]
  rw [bind_of_ok hevents]
  simp only [length_map, map_take, holdsBack]
  rfl

theorem Joined.acceptInventory (h : Joined σ a b) (hσ : Honest σ)
    (hsize : (σ.view a).length ≤ maxInventoryEventIds) : σ.acceptInventory b (σ.signedInventory a) =
      .ok (σ.serverRound (σ.missing a b) (σ.missing b a)) := by
  have hverify : (σ.signedInventory a).verifyForSession σ.sessionBinding = .ok () := by
    simp only [SignedSyncInventory.verifyForSession, ok_iff, Bool.not_eq_false]
    exact ⟨(), validate_view hsize, (), hσ.signs _ _, by simp [Session.signedInventory, Session.inventoryContent]⟩
  have hsign : SyncDiff.sign σ.server σ.conversationId σ.sessionBinding
      (((σ.missing a b).take maxSyncEventsPerBatch).map StoredAuthorizedEvent.id)
      (((σ.missing b a).take maxSyncEventsPerBatch).map StoredAuthorizedEvent.event)
      (holdsBack (σ.missing a b) (σ.missing b a)) = .ok (σ.frames (σ.missing a b) (σ.missing b a)).diff := by
    rw [SyncDiff.sign]
    exact bind_of_ok (h.validateDiffContent hσ) _
  simp only [Session.acceptInventory, authorization, store, protocol, ok_iff, mapError_eq_ok, not_not]
  exact ⟨(), hverify, (), hσ.membership, (), hσ.conversation, (), rfl, _, h.planSync hσ, _, hsign, rfl⟩

theorem Joined.checkDiff (h : Joined σ a b) (hσ : Honest σ) : σ.checkDiff ((σ.view a).map StoredAuthorizedEvent.id)
      (σ.frames (σ.missing a b) (σ.missing b a)).diff = .ok () := by
  have hverify : (σ.frames (σ.missing a b) (σ.missing b a)).diff.verifyForSession σ.sessionBinding
      σ.server = .ok () := by
    simp only [SyncDiff.verifyForSession, ok_iff, not_not, Bool.not_eq_false]
    exact ⟨(), h.validateDiffContent hσ, (), hσ.signs _ _, (), rfl, rfl⟩
  have hadvertised : ((σ.frames (σ.missing a b) (σ.missing b a)).diff.content.requestedEventIds).find?
      (· ∉ (σ.view a).map StoredAuthorizedEvent.id) = none := by
    simp only [List.find?_eq_none, decide_eq_true_eq, not_not]
    intro id hid
    obtain ⟨y, hy, rfl⟩ := mem_map.mp hid
    exact List.mem_map_of_mem (mem_view_of_mem_missing (mem_of_mem_take hy))
  have hmembers : (σ.frames (σ.missing a b) (σ.missing b a)).diff.content.events.forM
      (·.verifyForMembership σ.membership) = .ok () := by
    refine forM_eq_ok.mpr fun e he => ?_
    obtain ⟨y, hy, rfl⟩ := mem_map.mp he
    exact (h.right.entry (mem_view_of_mem_missing (mem_of_mem_take hy))).2.2
  simp only [Session.checkDiff, protocol, ok_iff, mapError_eq_ok, not_not, hadvertised]
  exact ⟨(), hverify, (), rfl, hmembers⟩

/-- The client stores what it lacked and answers with what the server lacks. -/
theorem Joined.acceptDiff (h : Joined σ a b) (hσ : Honest σ) :
    ∃ a', Takes σ a a' ((σ.missing b a).take maxSyncEventsPerBatch) ∧
      σ.acceptDiff a ((σ.view a).map StoredAuthorizedEvent.id)
        (σ.frames (σ.missing a b) (σ.missing b a)).diff =
        (a', .ok (σ.clientRound (σ.missing a b) (σ.missing b a))) := by
  obtain ⟨a', hput, htakes⟩ := h.put (take_sublist maxSyncEventsPerBatch (σ.missing b a))
  refine ⟨a', htakes, ?_⟩
  have hsent : ((σ.missing a b).take maxSyncEventsPerBatch).Sublist (σ.view a) :=
    (take_sublist _ _).trans List.filter_sublist
  have hevents := htakes.holds.eventsById hσ ((σ.missing a b).take maxSyncEventsPerBatch) fun y hy =>
      (mem_view htakes.holds.authorized).mpr (htakes.authorization.mpr
        (Or.inl ((mem_view h.left.authorized).mp (hsent.subset hy))))
  have hbatch := h.left.validateEvents hσ hsent (List.length_take_le _ _)
  have hanswer : σ.answerDiff a' (σ.frames (σ.missing a b) (σ.missing b a)).diff =
      .ok (σ.clientRound (σ.missing a b) (σ.missing b a)) := by
    simp only [Session.answerDiff, store, protocol, SyncEventBatch.new, ok_iff, mapError_eq_ok]
    refine ⟨_, hevents, _, ⟨(), hbatch, rfl⟩, ?_⟩
    rw [map_map, Session.frames, Session.diffContent, map_map]
    rfl
  rw [Session.acceptDiff, h.checkDiff hσ]
  simp only [Session.frames, Session.diffContent] at hput hanswer ⊢
  rw [hput]
  simp only [hanswer]

omit [Authority] in
theorem sameEventIds_refl (ids : List Id) : sameEventIds ids ids := ⟨rfl, fun _ h => h, fun _ h => h⟩

theorem Holds.eventIds (h : Holds σ s) (hys : ∀ y ∈ ys, y ∈ σ.view s) :
    ys.map (·.event.event.eventId) = ys.map StoredAuthorizedEvent.id :=
  List.map_congr_left fun y hy => (h.entry (hys y hy)).2.1

theorem Joined.checkBatch (h : Joined σ a b) : σ.checkBatch (σ.serverRound (σ.missing a b) (σ.missing b a))
      (σ.frames (σ.missing a b) (σ.missing b a)).batch = .ok () := by
  have hsent : ∀ y ∈ (σ.missing a b).take maxSyncEventsPerBatch, y ∈ σ.view a :=
    fun y hy => mem_view_of_mem_missing (mem_of_mem_take hy)
  have hmembers : (σ.frames (σ.missing a b) (σ.missing b a)).batch.events.forM
      (·.verifyForMembership σ.membership) = .ok () := by
    refine forM_eq_ok.mpr fun e he => ?_
    obtain ⟨y, hy, rfl⟩ := mem_map.mp he
    exact (h.left.entry (hsent y hy)).2.2
  simp only [Session.checkBatch, protocol, ok_iff, mapError_eq_ok, not_not]
  refine ⟨(), rfl, (), ?_, hmembers⟩
  rw [Session.frames, map_map, Session.serverRound, ← h.left.eventIds hsent]
  exact sameEventIds_refl _

theorem Joined.completeRound (h : Joined σ a b) (hσ : Honest σ) :
    ∃ b', Takes σ b b' ((σ.missing a b).take maxSyncEventsPerBatch) ∧
      σ.completeRound b (σ.serverRound (σ.missing a b) (σ.missing b a))
        (σ.frames (σ.missing a b) (σ.missing b a)).batch =
        (b', .ok ⟨σ.conversationId, ((σ.missing a b).take maxSyncEventsPerBatch).map (·.event.event.eventId),
          holdsBack (σ.missing a b) (σ.missing b a)⟩) := by
  obtain ⟨b', hput, htakes⟩ := h.symm.put (take_sublist maxSyncEventsPerBatch (σ.missing a b))
  refine ⟨b', htakes, ?_⟩
  have hstored : validateEventIds (((σ.missing a b).take maxSyncEventsPerBatch).map
      (·.event.event.eventId)) maxSyncEventsPerBatch = .ok () := by
    rw [h.left.eventIds fun y hy => mem_view_of_mem_missing (mem_of_mem_take hy)]
    obtain ⟨⟨⟩, hids, _⟩ := bind_eq_ok.mp (h.validateDiffContent hσ)
    exact hids
  have hcomplete : SyncComplete.new σ.conversationId (((σ.missing a b).take
      maxSyncEventsPerBatch).map (·.event.event.eventId)) (holdsBack (σ.missing a b) (σ.missing b a)) =
        .ok ⟨σ.conversationId, ((σ.missing a b).take maxSyncEventsPerBatch).map
          (·.event.event.eventId), holdsBack (σ.missing a b) (σ.missing b a)⟩ := by
    rw [SyncComplete.new, bind_of_ok hstored]
    rfl
  rw [Session.completeRound, h.checkBatch]
  simp only [Session.frames] at hput ⊢
  rw [hput]
  simp only [Session.serverRound, protocol, map_map]
  exact congrArg (Prod.mk b') (mapError_eq_ok.mpr hcomplete)

theorem acceptComplete_of_same (σ : Session) (toServer toClient : List StoredAuthorizedEvent) :
    σ.acceptComplete (σ.clientRound toServer toClient) ⟨σ.conversationId,
      (toServer.take maxSyncEventsPerBatch).map (·.event.event.eventId),
      holdsBack toServer toClient⟩ = .ok (holdsBack toServer toClient) := by
  rw [Session.acceptComplete]
  refine (bind_of_ok (failIf_of_not (not_not.mpr rfl) _) _).trans ?_
  refine (bind_of_ok (failIf_of_not (not_not.mpr (sameEventIds_refl _)) _) _).trans ?_
  exact bind_of_ok (failIf_of_not (not_not.mpr rfl) _) _

/-- A round moves the first entries that each side lacks. -/
theorem Joined.round (h : Joined σ a b) (hσ : Honest σ) (hsize : (σ.view a).length ≤ maxInventoryEventIds) :
    ∃ a' b', σ.round a b = .ok (a', b', σ.frames (σ.missing a b) (σ.missing b a),
        holdsBack (σ.missing a b) (σ.missing b a)) ∧
      Takes σ a a' ((σ.missing b a).take maxSyncEventsPerBatch) ∧
      Takes σ b b' ((σ.missing a b).take maxSyncEventsPerBatch) := by
  obtain ⟨a', ha', hdiff⟩ := h.acceptDiff hσ
  obtain ⟨b', hb', hcomplete⟩ := h.completeRound hσ
  refine ⟨a', b', ?_, ha', hb'⟩
  rw [Session.round, bind_of_ok (h.left.beginRound hσ hsize)]
  refine (bind_of_ok (h.acceptInventory hσ hsize) _).trans ?_
  simp only [Session.serverRound] at hcomplete ⊢
  simp only [hdiff]
  refine (bind_of_ok rfl _).trans ?_
  simp only [Session.clientRound, hcomplete]
  exact (bind_of_ok (acceptComplete_of_same σ _ _) _).trans rfl

end Kilogram.Sync
