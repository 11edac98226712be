import Kilogram.Store.EventStore
import Kilogram.Lib.Maps

/-!
# What the files of a store say

In a store written by its own operations, every event file holds a valid event under its id, no two
events have the same place in the sequence of an author, and every authorization belongs to an event
file.
-/

namespace Kilogram.Store
open Kilogram Std
open Except (ok_iff bind_of_ok mapError_eq_ok)
variable [Authority] {s : EventStore} {c : Id} {m : ConversationMembershipSnapshot}

/-- The event file of `id`. -/
def EventStore.event (s : EventStore) (c id : Id) : Option SignedEvent := (s.directory c).events[id]?

def EventStore.authorization (s : EventStore) (c id : Id) : Option AuthorizedEvent :=
  (s.directory c).authorizations[id]?

structure Files (s : EventStore) (c : Id) : Prop where
  event : ∀ {id e}, s.event c id = some e → e.verify = .ok () ∧ e.eventId = id ∧ e.conversationId = c
  position : ∀ {id id' e e'}, s.event c id = some e → s.event c id' = some e' → e.position = e'.position → id = id'

structure Authorized (s : EventStore) (m : ConversationMembershipSnapshot) : Prop where
  files : Files s m.conversationId
  authorization : ∀ {id a}, s.authorization m.conversationId id = some a →
    s.event m.conversationId id = some a.event ∧ a.verifyForMembership m = .ok ()

/-- Every event has its authorization. -/
def Readable (s : EventStore) (c : Id) : Prop := ∀ id, s.event c id ≠ none → s.authorization c id ≠ none

omit [Authority] in
theorem checkPositions_eq_ok {seen l : List (Id × UInt64)} {u : Unit} :
    checkPositions c seen l = .ok u ↔ l.Nodup ∧ ∀ p ∈ l, p ∉ seen := by
  induction l generalizing seen with
  | nil => simp [checkPositions]
  | cons p l ih =>
    simp only [checkPositions, ok_iff, ih, List.nodup_cons, List.mem_cons, not_or, forall_eq_or_imp]
    constructor
    · rintro ⟨_, hp, hnodup, hl⟩
      exact ⟨⟨fun hmem => (hl p hmem).1 rfl, hnodup⟩, hp, fun q hq => (hl q hq).2⟩
    · rintro ⟨⟨hmem, hnodup⟩, hp, hl⟩
      exact ⟨(), hp, hnodup, fun q hq => ⟨fun he => hmem (he ▸ hq), hl q hq⟩⟩

/-- The events of a conversation in the order of their ids. -/
def EventStore.stored (s : EventStore) (c : Id) : List StoredEvent :=
  (s.directory c).events.toList.map fun f => ⟨f.1, f.2⟩

omit [Authority] in
theorem mem_stored {x : StoredEvent} : x ∈ s.stored c ↔ s.event c x.id = some x.event := by
  rw [EventStore.stored, List.mem_map]
  constructor
  · rintro ⟨f, hf, rfl⟩
    exact TreeMap.mem_toList_iff_getElem?_eq_some.mp hf
  · intro h
    exact ⟨(x.id, x.event), TreeMap.mem_toList_iff_getElem?_eq_some.mpr h, rfl⟩

omit [Authority] in
theorem stored_ids_nodup (s : EventStore) (c : Id) : ((s.stored c).map StoredEvent.id).Nodup := by
  rw [EventStore.stored, List.map_map]
  exact Maps.nodup_keys _

theorem Files.positions_nodup (h : Files s c) : ((s.stored c).map (·.event.position)).Nodup := by
  apply List.Nodup.map_on _ (List.Nodup.of_map _ (stored_ids_nodup s c))
  intro x hx y hy hxy
  have hid := h.position (mem_stored.mp hx) (mem_stored.mp hy) hxy
  have := (mem_stored.mp hx).symm.trans (hid ▸ mem_stored.mp hy)
  cases x
  cases y
  simp_all

theorem Files.loadConversation (h : Files s c) : s.loadConversation c = .ok (s.stored c) := by
  have hcheck : (s.directory c).events.toList.mapM (checkStoredEvent c) = .ok (s.stored c) := by
    apply Except.mapM_of_forall
    intro f hf
    obtain ⟨hverify, hid, hconv⟩ := h.event (TreeMap.mem_toList_iff_getElem?_eq_some.mp hf)
    simp only [checkStoredEvent, ok_iff, mapError_eq_ok, not_not]
    exact ⟨(), hverify, (), hid, (), hconv, trivial⟩
  rw [EventStore.loadConversation, bind_of_ok hcheck, bind_of_ok (a := ())]
  · rfl
  · exact checkPositions_eq_ok.mpr ⟨h.positions_nodup, by simp⟩

theorem files_of_loadConversation {es : List StoredEvent} (h : s.loadConversation c = .ok es) : Files s c := by
  simp only [EventStore.loadConversation, ok_iff] at h
  obtain ⟨_, hcheck, ⟨⟩, hpos, rfl⟩ := h
  have hfile {id : Id} {e : SignedEvent} (he : s.event c id = some e) :
      checkStoredEvent c (id, e) = .ok ⟨id, e⟩ ∧ e.verify = .ok () ∧ e.eventId = id ∧ e.conversationId = c := by
    obtain ⟨y, _, hy⟩ := Except.exists_of_mapM hcheck (TreeMap.mem_toList_iff_getElem?_eq_some.mpr he)
    simp only [checkStoredEvent, ok_iff, mapError_eq_ok, not_not] at hy ⊢
    obtain ⟨⟨⟩, hverify, ⟨⟩, hid, ⟨⟩, hconv, _⟩ := hy
    exact ⟨⟨(), hverify, (), hid, (), hconv, trivial⟩, hverify, hid, hconv⟩
  refine ⟨fun he => (hfile he).2, ?_⟩
  intro id id' e e' he he' heq
  have hmem := (Except.mem_of_mapM hcheck).mpr ⟨_, TreeMap.mem_toList_iff_getElem?_eq_some.mpr he, (hfile he).1⟩
  have hmem' := (Except.mem_of_mapM hcheck).mpr ⟨_, TreeMap.mem_toList_iff_getElem?_eq_some.mpr he', (hfile he').1⟩
  exact congrArg StoredEvent.id (List.inj_on_of_nodup_map (checkPositions_eq_ok.mp hpos).1 hmem hmem' heq)

theorem verifyAuthor_of_membership {e : AuthorizedEvent} (h : e.verifyForMembership m = .ok ()) :
    e.verifyAuthor = .ok () ∧ m.conversationId = e.event.conversationId := by
  simp only [AuthorizedEvent.verifyForMembership, ok_iff, not_not] at h
  obtain ⟨⟨⟩, hauthor, _, hconv, _⟩ := h
  exact ⟨hauthor, hconv⟩

/-- The files of a conversation, for a membership that every author belongs to. -/
structure Entitled (s : EventStore) (c : Id) (m : ConversationMembershipSnapshot) : Prop where
  membership : m.verify = .ok ()
  conversation : m.conversationId = c
  files : Files s c
  authorized : ∀ {id e}, s.event c id = some e → ∃ a, s.authorization c id = some a ∧ a.event = e ∧
    a.verifyForMembership m = .ok ()

/-- A list of events in the order of their ids. -/
def Ordered (vs : List StoredAuthorizedEvent) : Prop := vs.Pairwise fun a b => compare a.id b.id = .lt

theorem checkStoredAuthorization_eq_ok (files : TreeMap Id AuthorizedEvent) {x : StoredEvent}
    {y : StoredAuthorizedEvent} (hx : x.event.eventId = x.id) :
    checkStoredAuthorization m c files x = .ok y ↔ files[x.id]? = some y.event ∧
      y.event.event = x.event ∧ y.event.verifyForMembership m = .ok () ∧ y.id = x.id := by
  simp only [checkStoredAuthorization, checked, ok_iff, mapError_eq_ok, not_or, not_not]
  constructor
  · rintro ⟨a, ha, _, _, _, hmember, _, hsame, rfl⟩
    exact ⟨ha, hsame.1, hmember, rfl⟩
  · rintro ⟨ha, hsame, hmember, hid⟩
    refine ⟨y.event, ha, (), (verifyAuthor_of_membership hmember).1, (), hmember, (), ?_, ?_⟩
    · exact ⟨hsame, hsame ▸ hx⟩
    · rw [← hid]

theorem Entitled.load_eq (h : Entitled s c m) : s.loadAuthorizedConversation c m = (s.stored c).mapM
      (checkStoredAuthorization m c (s.directory c).authorizations) := by
  rw [EventStore.loadAuthorizedConversation, checked, bind_of_ok (mapError_eq_ok.mpr h.membership),
    bind_of_ok (Except.failIf_of_not (not_not.mpr h.conversation) _),
    bind_of_ok h.files.loadConversation]

theorem Files.eventId_of_mem_stored (h : Files s c) {x : StoredEvent} (hx : x ∈ s.stored c) :
    x.event.eventId = x.id :=
  (h.event (mem_stored.mp hx)).2.1

/-- The events a conversation returns, in order. -/
structure Returns (s : EventStore) (c : Id) (vs : List StoredAuthorizedEvent) : Prop where
  ordered : Ordered vs
  mem : ∀ {y}, y ∈ vs ↔ s.event c y.id = some y.event.event ∧ s.authorization c y.id = some y.event

theorem Entitled.exists_returns (h : Entitled s c m) :
    ∃ vs, s.loadAuthorizedConversation c m = .ok vs ∧ Returns s c vs := by
  have hcheck {x : StoredEvent} (hx : x ∈ s.stored c) {y : StoredAuthorizedEvent} :=
    checkStoredAuthorization_eq_ok (s.directory c).authorizations (m := m) (c := c) (y := y)
      (h.files.eventId_of_mem_stored hx)
  have hok : ∀ x ∈ s.stored c, ∃ y, checkStoredAuthorization m c (s.directory c).authorizations x = .ok y := by
    intro x hx
    obtain ⟨a, ha, hsame, hmember⟩ := h.authorized (mem_stored.mp hx)
    exact ⟨⟨x.id, a⟩, (hcheck hx).mpr ⟨ha, hsame, hmember, rfl⟩⟩
  obtain ⟨vs, hvs⟩ := Except.mapM_isOk hok
  refine ⟨vs, h.load_eq.trans hvs, ?_, ?_⟩
  · have hids : vs.map StoredAuthorizedEvent.id = (s.stored c).map StoredEvent.id :=
      Except.map_of_mapM hvs fun x hx y hy => ((hcheck hx).mp hy).2.2.2
    have hpair : ((s.stored c).map StoredEvent.id).Pairwise fun a b => compare a b = .lt := by
      rw [EventStore.stored, List.map_map]
      exact List.pairwise_map.mpr TreeMap.ordered_keys_toList
    rw [← hids] at hpair
    exact List.pairwise_map.mp hpair
  · intro y
    rw [Except.mem_of_mapM hvs]
    constructor
    · rintro ⟨x, hx, hy⟩
      obtain ⟨ha, hsame, _, hid⟩ := (hcheck hx).mp hy
      rw [hid, hsame]
      exact ⟨mem_stored.mp hx, ha⟩
    · rintro ⟨he, ha⟩
      have hx : ⟨y.id, y.event.event⟩ ∈ s.stored c := mem_stored.mpr he
      obtain ⟨a, ha', _, hmember⟩ := h.authorized he
      cases ha.symm.trans ha'
      exact ⟨_, hx, (hcheck hx).mpr ⟨ha, rfl, hmember, rfl⟩⟩

variable {vs : List StoredAuthorizedEvent}

omit [Authority] in
theorem Returns.eq {vs' : List StoredAuthorizedEvent} (h : Returns s c vs) (h' : Returns s c vs') : vs = vs' :=
  Maps.eq_of_ordered h.ordered h'.ordered fun _ => h.mem.trans h'.mem.symm

/-- The authorized read succeeds exactly where everything is in order, and returns everything. -/
theorem load_eq_ok : s.loadAuthorizedConversation c m = .ok vs ↔ Entitled s c m ∧ Returns s c vs := by
  constructor
  · intro h
    have hentitled : Entitled s c m := by
      have h' := h
      simp only [EventStore.loadAuthorizedConversation, checked, ok_iff, mapError_eq_ok, not_not] at h'
      obtain ⟨⟨⟩, hmember, _, hconv, es, hes, hvs⟩ := h'
      have hfiles := files_of_loadConversation hes
      cases hfiles.loadConversation.symm.trans hes
      refine ⟨hmember, hconv, hfiles, ?_⟩
      intro id e he
      have hx : ⟨id, e⟩ ∈ s.stored c := mem_stored.mpr he
      obtain ⟨y, _, hy⟩ := Except.exists_of_mapM hvs hx
      obtain ⟨ha, hsame, hok, _⟩ := (checkStoredAuthorization_eq_ok _ (hfiles.eventId_of_mem_stored hx)).mp hy
      exact ⟨y.event, ha, hsame, hok⟩
    obtain ⟨vs', hvs', hreturns⟩ := hentitled.exists_returns
    cases h.symm.trans hvs'
    exact ⟨hentitled, hreturns⟩
  · rintro ⟨h, hreturns⟩
    obtain ⟨vs', hvs', hreturns'⟩ := h.exists_returns
    rw [hvs', hreturns.eq hreturns']

theorem Returns.positions_nodup (h : Returns s c vs)
    (hfiles : Files s c) : (vs.map (·.event.event.position)).Nodup := by
  have hnodup : vs.Nodup := h.ordered.imp fun hlt heq =>
    absurd (heq ▸ hlt) (by simp)
  apply List.Nodup.map_on _ hnodup
  intro x hx y hy hxy
  obtain ⟨hx, hax⟩ := h.mem.mp hx
  obtain ⟨hy, hay⟩ := h.mem.mp hy
  have hid := hfiles.position hx hy hxy
  rw [hid] at hax
  cases x
  cases y
  simp_all

theorem Authorized.entitled_iff (h : Authorized s m) (hm : m.verify = .ok ()) :
    Entitled s m.conversationId m ↔ Readable s m.conversationId := by
  constructor
  · intro hentitled id hid
    obtain ⟨e, he⟩ := Option.ne_none_iff_exists'.mp hid
    obtain ⟨a, ha, _⟩ := hentitled.authorized he
    simp [ha]
  · intro hread
    refine ⟨hm, rfl, h.files, ?_⟩
    intro id e he
    obtain ⟨a, ha⟩ := Option.ne_none_iff_exists'.mp (hread id (by simp [he]))
    obtain ⟨hevent, hmember⟩ := h.authorization ha
    exact ⟨a, ha, Option.some.inj (hevent.symm.trans he), hmember⟩

theorem Authorized.load_isOk (h : Authorized s m) (hm : m.verify = .ok ()) :
    (∃ vs, s.loadAuthorizedConversation m.conversationId m = .ok vs) ↔ Readable s m.conversationId := by
  rw [← h.entitled_iff hm]
  constructor
  · rintro ⟨vs, hvs⟩
    exact (load_eq_ok.mp hvs).1
  · intro hentitled
    obtain ⟨vs, hvs, _⟩ := hentitled.exists_returns
    exact ⟨vs, hvs⟩

theorem Authorized.mem_load (h : Authorized s m)
    (hvs : s.loadAuthorizedConversation m.conversationId m = .ok vs) {y : StoredAuthorizedEvent} :
    y ∈ vs ↔ s.authorization m.conversationId y.id = some y.event := by
  rw [(load_eq_ok.mp hvs).2.mem]
  exact ⟨fun h' => h'.2, fun ha => ⟨(h.authorization ha).1, ha⟩⟩

theorem authorized_empty (m : ConversationMembershipSnapshot) : Authorized ∅ m := by
  have hevent (c id : Id) : EventStore.event ∅ c id = none := by
    simp [EventStore.event, EventStore.directory, Directory.empty]
  have hauth (c id : Id) : EventStore.authorization ∅ c id = none := by
    simp [EventStore.authorization, EventStore.directory, Directory.empty]
  refine ⟨⟨?_, ?_⟩, ?_⟩
  · intro id e h
    cases h.symm.trans (hevent _ _)
  · intro id id' e e' h
    cases h.symm.trans (hevent _ _)
  · intro id a h
    cases h.symm.trans (hauth _ _)

omit [Authority] in
theorem readable_empty (c : Id) : Readable ∅ c := by
  intro id h
  simp [EventStore.event, EventStore.directory, Directory.empty] at h

end Kilogram.Store
