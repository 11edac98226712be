import Kilogram.Store.Files

/-!
# The two passes of a batch

A batch is written in two passes, first the event files and then the authorizations, each checked while
it is written.
-/

namespace Kilogram.Store
open Kilogram Std
open List (forall_mem_cons mem_cons_of_mem mem_cons_self mem_map)
variable [Authority] {s s' : EventStore} {c : Id} {m : ConversationMembershipSnapshot}

omit [Authority] in
theorem directory_insert (s : EventStore) (a b : Id) (d : Directory) :
    EventStore.directory (s.insert a d) b = if a = b then d else s.directory b := by
  unfold EventStore.directory
  rw [Maps.get_insert]
  split <;> rfl

theorem event_persistEvent (s : EventStore) (e : SignedEvent) (c id : Id) : (s.persistEvent e).event c id =
      if e.conversationId = c ∧ e.eventId = id then some e else s.event c id := by
  unfold EventStore.event EventStore.persistEvent
  rw [directory_insert]
  by_cases hc : e.conversationId = c
  · subst hc
    simp only [if_true, true_and]
    exact Maps.get_insert _ _ _ _
  · rw [if_neg hc, if_neg fun h => hc h.1]

theorem authorization_persistEvent (s : EventStore) (e : SignedEvent) (c id : Id) :
    (s.persistEvent e).authorization c id = s.authorization c id := by
  unfold EventStore.authorization EventStore.persistEvent
  rw [directory_insert]
  split
  · next hc => rw [← hc]
  · rfl

theorem event_persistAuthorization (s : EventStore) (e : AuthorizedEvent) (c id : Id) :
    (s.persistAuthorization e).event c id = s.event c id := by
  unfold EventStore.event EventStore.persistAuthorization
  rw [directory_insert]
  split
  · next hc => rw [← hc]
  · rfl

theorem authorization_persistAuthorization (s : EventStore) (e : AuthorizedEvent) (c id : Id) :
    (s.persistAuthorization e).authorization c id = if e.event.conversationId = c ∧ e.event.eventId = id then some e
      else s.authorization c id := by
  unfold EventStore.authorization EventStore.persistAuthorization
  rw [directory_insert]
  by_cases hc : e.event.conversationId = c
  · subst hc
    simp only [if_true, true_and]
    exact Maps.get_insert _ _ _ _
  · rw [if_neg hc, if_neg fun h => hc h.1]

/-- An event that is valid in the conversation of the membership. -/
structure Valid (m : ConversationMembershipSnapshot) (e : SignedEvent) : Prop where
  verify : e.verify = .ok ()
  conversation : e.conversationId = m.conversationId

/-- The event cannot be stored: its id or its place in the sequence of its author is taken. -/
def Offends (s : EventStore) (m : ConversationMembershipSnapshot) (e : SignedEvent) : Prop :=
  (∃ e', s.event m.conversationId e.eventId = some e' ∧ e' ≠ e) ∨ s.event m.conversationId e.eventId = none ∧
      ∃ id e', s.event m.conversationId id = some e' ∧ e'.position = e.position

/-- The event can be stored as a new one. -/
structure Fresh (s : EventStore) (m : ConversationMembershipSnapshot) (e : SignedEvent) : Prop where
  id : s.event m.conversationId e.eventId = none
  position : ∀ {id e'}, s.event m.conversationId id = some e' → e'.position ≠ e.position

theorem stored_or_offends_or_fresh (s : EventStore) (m : ConversationMembershipSnapshot) (e : SignedEvent) :
    s.event m.conversationId e.eventId = some e ∨ Offends s m e ∨ Fresh s m e := by
  cases h : s.event m.conversationId e.eventId with
  | some e' =>
    by_cases he : e' = e
    · exact .inl (by rw [he])
    · exact .inr (.inl (.inl ⟨e', h, he⟩))
  | none =>
    by_cases hp : ∃ id e', s.event m.conversationId id = some e' ∧ e'.position = e.position
    · exact .inr (.inl (.inr ⟨h, hp⟩))
    · exact .inr (.inr ⟨h, fun h' hpos => hp ⟨_, _, h', hpos⟩⟩)

variable {e : SignedEvent} {events : List AuthorizedEvent}

theorem Offends.not_stored (h : Offends s m e) : s.event m.conversationId e.eventId ≠ some e := by
  rcases h with ⟨e', he', hne⟩ | ⟨hnone, _⟩
  · rw [he']
    exact fun h => hne (Option.some.inj h)
  · simp [hnone]

theorem Offends.not_fresh (h : Offends s m e) : ¬ Fresh s m e := by
  intro hf
  rcases h with ⟨e', he', _⟩ | ⟨_, id, e', he', hpos⟩
  · cases hf.id.symm.trans he'
  · exact hf.position he' hpos

theorem Authorized.persistEvent (h : Authorized s m) (he : Valid m e)
    (hf : Fresh s m e) : Authorized (s.persistEvent e) m := by
  have hget (id : Id) : (s.persistEvent e).event m.conversationId id =
      if e.eventId = id then some e else s.event m.conversationId id := by
    rw [event_persistEvent]
    simp only [he.conversation, true_and]
  refine ⟨⟨?_, ?_⟩, ?_⟩
  · intro id e' h'
    rw [hget] at h'
    split at h'
    · next hid =>
      cases h'
      exact ⟨he.verify, hid, he.conversation⟩
    · exact h.files.event h'
  · intro id id' e₁ e₂ h₁ h₂ hpos
    rw [hget] at h₁ h₂
    split at h₁ <;> split at h₂
    · next hid hid' => exact hid.symm.trans hid'
    · cases h₁
      exact absurd hpos.symm (hf.position h₂)
    · cases h₂
      exact absurd hpos (hf.position h₁)
    · exact h.files.position h₁ h₂ hpos
  · intro id a ha
    rw [authorization_persistEvent] at ha
    obtain ⟨hevent, hmember⟩ := h.authorization ha
    refine ⟨?_, hmember⟩
    rw [hget, if_neg, hevent]
    intro hid
    rw [← hid, hf.id] at hevent
    simp at hevent

theorem Authorized.persistAuthorization {e : AuthorizedEvent} (h : Authorized s m)
    (he : e.verifyForMembership m = .ok ())
    (hstored : s.event m.conversationId e.event.eventId = some e.event) :
    Authorized (s.persistAuthorization e) m := by
  refine ⟨⟨?_, ?_⟩, ?_⟩
  · intro id e' h'
    rw [event_persistAuthorization] at h'
    exact h.files.event h'
  · intro id id' e₁ e₂ h₁ h₂ hpos
    rw [event_persistAuthorization] at h₁ h₂
    exact h.files.position h₁ h₂ hpos
  · intro id a ha
    rw [authorization_persistAuthorization] at ha
    rw [event_persistAuthorization]
    split at ha
    · next hid =>
      cases ha
      rw [← hid.2]
      exact ⟨hstored, he⟩
    · exact h.authorization ha

/-- Nothing is lost and no authorization is added. -/
structure Extends (m : ConversationMembershipSnapshot) (s s' : EventStore) : Prop where
  event : ∀ {id e}, s.event m.conversationId id = some e → s'.event m.conversationId id = some e
  authorization : ∀ id, s'.authorization m.conversationId id = s.authorization m.conversationId id

omit [Authority] in
theorem Extends.refl (m : ConversationMembershipSnapshot) (s : EventStore) : Extends m s s :=
  ⟨fun h => h, fun _ => rfl⟩

omit [Authority] in
theorem Extends.trans {s₁ s₂ s₃ : EventStore} (h : Extends m s₁ s₂) (h' : Extends m s₂ s₃) : Extends m s₁ s₃ :=
  ⟨fun he => h'.event (h.event he), fun id => (h'.authorization id).trans (h.authorization id)⟩

theorem Extends.persistEvent (hf : Fresh s m e) : Extends m s (s.persistEvent e) := by
  refine ⟨?_, fun id => authorization_persistEvent s e _ id⟩
  intro id e' he'
  rw [event_persistEvent, if_neg, he']
  rintro ⟨_, hid⟩
  rw [← hid, hf.id] at he'
  simp at he'

/-- The first event of a batch that the store does not hold. -/
def firstNew (s : EventStore) (m : ConversationMembershipSnapshot) (events : List SignedEvent) : Option SignedEvent :=
  events.find? fun e => s.event m.conversationId e.eventId ≠ some e

theorem firstNew_cons_of_stored (rest : List SignedEvent) (h : s.event m.conversationId e.eventId = some e) :
    firstNew s m (e :: rest) = firstNew s m rest := by
  simp [firstNew, h]

theorem firstNew_cons_of_not_stored (rest : List SignedEvent)
    (h : s.event m.conversationId e.eventId ≠ some e) : firstNew s m (e :: rest) = some e := by
  simp [firstNew, h]

/-- The positions the first pass remembers are those of the stored events. -/
def Remembers (s : EventStore) (m : ConversationMembershipSnapshot) (positions : List ((Id × UInt64) × Id)) : Prop :=
  ∀ p, positions.lookup p = none ↔ ∀ id e, s.event m.conversationId id = some e → e.position ≠ p

theorem Remembers.persistEvent {positions : List ((Id × UInt64) × Id)}
    (h : Remembers s m positions) (he : Valid m e) (hf : Fresh s m e) :
    Remembers (s.persistEvent e) m ((e.position, e.eventId) :: positions) := by
  intro p
  rw [List.lookup_cons]
  by_cases hp : p = e.position
  · subst hp
    simp only [beq_self_eq_true, reduceCtorEq, false_iff, not_forall]
    exact ⟨e.eventId, e, by rw [event_persistEvent, if_pos ⟨he.conversation, rfl⟩], fun h => h rfl⟩
  · rw [beq_eq_false_iff_ne.mpr hp]
    dsimp only
    rw [h p]
    constructor
    · intro hall id e' h'
      rw [event_persistEvent] at h'
      split at h'
      · cases h'
        exact fun heq => hp heq.symm
      · exact hall id e' h'
    · intro hall id e' h'
      apply hall id e'
      rw [event_persistEvent, if_neg, h']
      rintro ⟨_, hid⟩
      rw [← hid, hf.id] at h'
      simp at h'

/-- What the first pass does with a batch. -/
structure FirstPass (m : ConversationMembershipSnapshot) (s : EventStore) (events : List SignedEvent)
    (r : EventStore × Result Unit) : Prop where
  authorized : Authorized r.1 m
  extends' : Extends m s r.1
  source : ∀ {id e}, r.1.event m.conversationId id = some e → s.event m.conversationId id = some e ∨ e ∈ events
  stored : r.2 = .ok () → ∀ e ∈ events, r.1.event m.conversationId e.eventId = some e
  nothing : firstNew s m events = none → r = (s, .ok ())
  refused : ∀ {e}, firstNew s m events = some e → Offends s m e → r.1 = s ∧ ∃ x, r.2 = .error x
  written : ∀ {e}, firstNew s m events = some e → Fresh s m e → r.1.event m.conversationId e.eventId = some e

theorem FirstPass.of_offends {rest : List SignedEvent} (hs : Authorized s m)
    (hoff : Offends s m e) (x : StoreError) : FirstPass m s (e :: rest) (s, .error x) := by
  have hfirst := firstNew_cons_of_not_stored rest hoff.not_stored
  refine ⟨hs, .refl m s, .inl, fun h => absurd h (by simp), ?_, fun _ _ => ⟨rfl, x, rfl⟩, ?_⟩
  · rw [hfirst]
    exact fun h => absurd h (by simp)
  · intro e' he'
    rw [hfirst] at he'
    cases he'
    exact fun hfresh => absurd hfresh hoff.not_fresh

theorem FirstPass.of_fresh {rest : List SignedEvent} {r : EventStore × Result Unit}
    (he : Valid m e) (hfresh : Fresh s m e) (hr : FirstPass m (s.persistEvent e) rest r) :
    FirstPass m s (e :: rest) r := by
  have hfirst := firstNew_cons_of_not_stored rest (m := m) (e := e) (s := s) (by simp [hfresh.id])
  have hwritten : (s.persistEvent e).event m.conversationId e.eventId = some e := by
    rw [event_persistEvent, if_pos ⟨he.conversation, rfl⟩]
  have hkept := hr.extends'.event hwritten
  refine ⟨hr.authorized, (Extends.persistEvent hfresh).trans hr.extends', ?_, ?_, ?_, ?_, ?_⟩
  · intro id e' he'
    rcases hr.source he' with h | h
    · rw [event_persistEvent] at h
      split at h
      · exact .inr (Option.some.inj h ▸ .head _)
      · exact .inl h
    · exact .inr (mem_cons_of_mem e h)
  · intro hok
    rw [forall_mem_cons]
    exact ⟨hkept, hr.stored hok⟩
  · rw [hfirst]
    exact fun h => absurd h (by simp)
  · intro e' he' hoff
    rw [hfirst] at he'
    cases he'
    exact absurd hfresh hoff.not_fresh
  · intro e' he' _
    rw [hfirst] at he'
    cases he'
    exact hkept

theorem putNewEvents_spec (events : List SignedEvent) {positions : List ((Id × UInt64) × Id)}
    (hs : Authorized s m) (hpos : Remembers s m positions) (hevents : ∀ e ∈ events, Valid m e) :
    FirstPass m s events (s.putNewEvents positions events) := by
  induction events generalizing s positions with
  | nil =>
    exact ⟨hs, .refl m s, .inl, fun _ _ h => absurd h (by simp), fun _ => rfl,
      fun h => absurd h (by simp [firstNew]), fun h => absurd h (by simp [firstNew])⟩
  | cons e rest ih =>
    have he := hevents e (.head _)
    have hrest := fun x hx => hevents x (mem_cons_of_mem e hx)
    have hconv : ∀ id, (s.directory e.conversationId).events[id]? = s.event m.conversationId id := by
      intro id
      rw [he.conversation]
      rfl
    unfold EventStore.putNewEvents
    rw [hconv]
    rcases stored_or_offends_or_fresh s m e with hstored | hoff | hfresh
    · -- the event is there already
      have hr := ih hs hpos hrest
      rw [hstored]
      simp only [validateExistingEvent, if_true]
      have hfirst := firstNew_cons_of_stored rest hstored
      refine ⟨hr.authorized, hr.extends', fun h => (hr.source h).imp_right (mem_cons_of_mem e), ?_, ?_, ?_, ?_⟩
      · intro hok
        rw [forall_mem_cons]
        exact ⟨hr.extends'.event hstored, hr.stored hok⟩
      · rw [hfirst]
        exact hr.nothing
      · rw [hfirst]
        exact hr.refused
      · rw [hfirst]
        exact hr.written
    · rcases hoff with ⟨e', he', hne⟩ | ⟨hnone, id, e', he', hposition⟩
      · rw [he']
        simp only [validateExistingEvent, if_neg hne]
        exact .of_offends hs (.inl ⟨e', he', hne⟩) _
      · rw [hnone]
        have hlookup : positions.lookup e.position ≠ none := fun h =>
          (hpos e.position).mp h id e' he' hposition
        obtain ⟨existing, hexisting⟩ := Option.ne_none_iff_exists'.mp hlookup
        simp only [hexisting]
        exact .of_offends hs (.inr ⟨hnone, id, e', he', hposition⟩) _
    · have hlookup := (hpos e.position).mpr fun id e' he' => hfresh.position he'
      simp only [hfresh.id, hlookup]
      exact .of_fresh he hfresh (ih (hs.persistEvent he hfresh) (hpos.persistEvent he hfresh) hrest)

/-- The positions of the stored events, as a batch collects them. -/
def EventStore.positions (s : EventStore) (c : Id) : List ((Id × UInt64) × Id) :=
  (s.stored c).map fun x => (x.event.position, x.id)

omit [Authority] in
theorem remembers_positions (s : EventStore) (m : ConversationMembershipSnapshot) :
    Remembers s m (s.positions m.conversationId) := by
  intro p
  simp only [EventStore.positions, List.lookup_eq_none_iff, mem_map, bne_iff_ne]
  constructor
  · intro h id e he
    exact (h _ ⟨⟨id, e⟩, mem_stored.mpr he, rfl⟩).symm
  · rintro h _ ⟨x, hx, rfl⟩
    exact (h x.id x.event (mem_stored.mp hx)).symm

omit [Authority] in
theorem groups_eq {rest : List SignedEvent} (h : ∀ x ∈ e :: rest, x.conversationId = c) :
    EventStore.groups (e :: rest) = [(c, e :: rest)] := by
  have he : e.conversationId = c := h e (.head _)
  have hids : ((e :: rest).map SignedEvent.conversationId).eraseDups = [c] := by
    rw [List.map_cons, List.eraseDups_cons, he, List.filter_eq_nil_iff.mpr]
    · rfl
    · intro x hx
      obtain ⟨y, hy, rfl⟩ := mem_map.mp hx
      simp [h y (mem_cons_of_mem e hy)]
  have hall : (e :: rest).filter (fun x => x.conversationId = c) = e :: rest := by
    rw [List.filter_eq_self]
    intro x hx
    exact decide_eq_true (h x hx)
  rw [EventStore.groups, hids, List.map_singleton, hall]

theorem putBatch_eq {events : List SignedEvent} (hs : Authorized s m) (hevents : ∀ e ∈ events, Valid m e) :
    s.putBatch events = s.putNewEvents (s.positions m.conversationId) events := by
  have hverify : events.forM SignedEvent.verify = .ok () := Except.forM_eq_ok.mpr fun e he => (hevents e he).verify
  unfold EventStore.putBatch
  rw [hverify]
  simp only [checked, Except.mapError]
  cases events with
  | nil => rfl
  | cons e rest =>
    rw [groups_eq fun x hx => (hevents x hx).conversation]
    unfold EventStore.putGroups
    rw [hs.files.loadConversation]
    dsimp only
    rw [← EventStore.positions]
    rcases s.putNewEvents (s.positions m.conversationId) (e :: rest) with ⟨s', r⟩
    cases r <;> rfl

theorem putBatch_spec {events : List SignedEvent} (hs : Authorized s m)
    (hevents : ∀ e ∈ events, Valid m e) : FirstPass m s events (s.putBatch events) := by
  rw [putBatch_eq hs hevents]
  exact putNewEvents_spec events hs (remembers_positions s m) hevents

theorem valid_of_membership {e : AuthorizedEvent} (h : e.verifyForMembership m = .ok ()) : Valid m e.event := by
  obtain ⟨hauthor, hconv⟩ := verifyAuthor_of_membership h
  simp only [AuthorizedEvent.verifyAuthor, Except.bind_eq_ok] at hauthor
  obtain ⟨⟨⟩, hverify, _⟩ := hauthor
  exact ⟨hverify, hconv.symm⟩

theorem valid_of_batch {events : List AuthorizedEvent} (h : ∀ e ∈ events, e.verifyForMembership m = .ok ()) :
    ∀ e ∈ events.map AuthorizedEvent.event, Valid m e := by
  intro e he
  obtain ⟨a, ha, rfl⟩ := List.mem_map.mp he
  exact valid_of_membership (h a ha)

theorem putAuthorization_eq {e : AuthorizedEvent} (he : e.verifyForMembership m = .ok ()) :
    s.putAuthorization e = match s.authorization m.conversationId e.event.eventId with
      | some stored => (s, validateExistingAuthorization stored e)
      | none => (s.persistAuthorization e, .ok ()) := by
  unfold EventStore.putAuthorization
  rw [(verifyAuthor_of_membership he).1, (valid_of_membership he).conversation]
  rfl

theorem putAuthorizedWithReceipt_eq {e : AuthorizedEvent} (he : e.verifyForMembership m = .ok ())
    (hstored : s.event m.conversationId e.event.eventId = some e.event) :
    s.putAuthorizedWithReceipt m e = match s.putAuthorization e with
      | (s, .error x) => (s, .error x)
      | (s, .ok _) => (s, .ok (.alreadyPresent, [.event e.event.conversationId e.event.eventId,
            .authorization e.event.conversationId e.event.eventId])) := by
  have hvalid := valid_of_membership he
  have hput : s.put e.event = (s, .ok .alreadyPresent) := by
    unfold EventStore.put
    rw [hvalid.verify]
    simp only [checked, Except.mapError]
    rw [show (s.directory e.event.conversationId).events[e.event.eventId]? = some e.event by
      rw [hvalid.conversation]; exact hstored]
    simp [validateExistingEvent]
  unfold EventStore.putAuthorizedWithReceipt
  rw [he, hput]
  rfl

/-- What the second pass does with a batch whose event files are there. -/
structure SecondPass (m : ConversationMembershipSnapshot) (s : EventStore)
    (events : List AuthorizedEvent) (r : EventStore × Result (List Path)) : Prop where
  authorized : Authorized r.1 m
  event : ∀ id, r.1.event m.conversationId id = s.event m.conversationId id
  authorization : ∀ {id a}, s.authorization m.conversationId id = some a →
    r.1.authorization m.conversationId id = some a
  source : ∀ {id a}, r.1.authorization m.conversationId id = some a →
    s.authorization m.conversationId id = some a ∨ a ∈ events
  stored : (∃ paths, r.2 = .ok paths) → ∀ e ∈ events, r.1.authorization m.conversationId e.event.eventId = some e
  nothing : (∀ e ∈ events, s.authorization m.conversationId e.event.eventId ≠ none) → r.1 = s

theorem SecondPass.cons {s₁ : EventStore} {e : AuthorizedEvent} {rest : List AuthorizedEvent}
    {r : EventStore × Result (List Path)} (hr : SecondPass m s₁ rest r)
    (hevent : ∀ id, s₁.event m.conversationId id = s.event m.conversationId id)
    (hkeep : ∀ {id a}, s.authorization m.conversationId id = some a → s₁.authorization m.conversationId id = some a)
    (hsource : ∀ {id a}, s₁.authorization m.conversationId id = some a →
      s.authorization m.conversationId id = some a ∨ a = e)
    (he : s₁.authorization m.conversationId e.event.eventId = some e)
    (hsame : s.authorization m.conversationId e.event.eventId ≠ none → s₁ = s) :
    SecondPass m s (e :: rest) r := by
  refine ⟨hr.authorized, fun id => (hr.event id).trans (hevent id), fun ha => hr.authorization (hkeep ha), ?_, ?_, ?_⟩
  · intro id a ha
    rcases hr.source ha with ha | ha
    · rcases hsource ha with ha | rfl
      · exact .inl ha
      · exact .inr (.head _)
    · exact .inr (mem_cons_of_mem e ha)
  · intro hok
    rw [forall_mem_cons]
    exact ⟨hr.authorization he, hr.stored hok⟩
  · intro hall
    rw [forall_mem_cons] at hall
    have hs₁ := hsame hall.1
    exact (hr.nothing (hs₁ ▸ hall.2)).trans hs₁

theorem putReceipts_spec (receipt : List Path) (events : List AuthorizedEvent) (hs : Authorized s m)
    (hevents : ∀ e ∈ events, e.verifyForMembership m = .ok ())
    (hstored : ∀ e ∈ events, s.event m.conversationId e.event.eventId = some e.event) :
    SecondPass m s events (s.putReceipts m receipt events) := by
  induction events generalizing s receipt with
  | nil =>
    exact ⟨hs, fun _ => rfl, fun h => h, .inl, fun _ _ h => absurd h (by simp), fun _ => rfl⟩
  | cons e rest ih =>
    have he := hevents e (.head _)
    have hrest := fun x hx => hevents x (mem_cons_of_mem e hx)
    have hrestStored := fun x hx => hstored x (mem_cons_of_mem e hx)
    unfold EventStore.putReceipts
    rw [putAuthorizedWithReceipt_eq he (hstored e (.head _)), putAuthorization_eq he]
    cases ha : s.authorization m.conversationId e.event.eventId with
    | some stored =>
      by_cases hsame : stored = e
      · subst hsame
        simp only [validateExistingAuthorization, if_true]
        exact (ih _ hs hrest hrestStored).cons (fun _ => rfl) (fun h => h) .inl ha fun _ => rfl
      · simp only [validateExistingAuthorization, if_neg hsame]
        exact ⟨hs, fun _ => rfl, fun h => h, .inl, fun ⟨_, h⟩ => absurd h (by simp), fun _ => rfl⟩
    | none =>
      have hs₁ := hs.persistAuthorization he (hstored e (.head _))
      have hevent := event_persistAuthorization s e m.conversationId
      have hget := authorization_persistAuthorization s e m.conversationId
      have hconv := (valid_of_membership he).conversation
      refine (ih _ hs₁ hrest fun x hx => (hevent _).trans (hrestStored x hx)).cons hevent ?_ ?_ ?_
        fun h => absurd ha h
      · intro id a hid
        rw [hget, if_neg, hid]
        rintro ⟨_, heq⟩
        rw [← heq, ha] at hid
        simp at hid
      · intro id a hid
        rw [hget] at hid
        split at hid
        · exact .inr (Option.some.inj hid).symm
        · exact .inl hid
      · rw [hget, if_pos ⟨hconv, rfl⟩]

/-- Two events that can stand in one conversation. -/
def Distinct (a b : SignedEvent) : Prop := a.eventId ≠ b.eventId ∧ a.position ≠ b.position

theorem Fresh.persistEvent {e' : SignedEvent} (h : Fresh s m e') (hd : Distinct e e') :
    Fresh (s.persistEvent e) m e' := by
  refine ⟨?_, ?_⟩
  · rw [event_persistEvent, if_neg fun heq => hd.1 heq.2, h.id]
  · intro id x hx
    rw [event_persistEvent] at hx
    split at hx
    · cases hx
      exact hd.2
    · exact h.position hx

/-- The first pass accepts events that are stored or new and that can stand in one conversation. -/
theorem putNewEvents_of_fits {events : List SignedEvent} {positions : List ((Id × UInt64) × Id)}
    (hpos : Remembers s m positions) (hevents : ∀ e ∈ events, Valid m e)
    (hfits : ∀ e ∈ events, s.event m.conversationId e.eventId = some e ∨ Fresh s m e)
    (hapart : events.Pairwise fun a b => a = b ∨ Distinct a b) :
    (s.putNewEvents positions events).2 = .ok () := by
  induction events generalizing s positions with
  | nil => rfl
  | cons e rest ih =>
    have he := hevents e (.head _)
    have hvalid := fun x hx => hevents x (mem_cons_of_mem e hx)
    obtain ⟨hfirst, hrest⟩ := List.pairwise_cons.mp hapart
    have hconv : (s.directory e.conversationId).events[e.eventId]? = s.event m.conversationId e.eventId := by
      rw [he.conversation]
      rfl
    unfold EventStore.putNewEvents
    rw [hconv]
    rcases hfits e (.head _) with hstored | hf
    · simp only [hstored, validateExistingEvent, if_true]
      exact ih hpos hvalid (fun x hx => hfits x (mem_cons_of_mem e hx)) hrest
    · have hlookup := (hpos e.position).mpr fun id e' he' => hf.position he'
      simp only [hf.id, hlookup]
      refine ih (hpos.persistEvent he hf) hvalid (fun x hx => ?_) hrest
      rcases hfirst x hx with rfl | hd
      · exact .inl (by rw [event_persistEvent, if_pos ⟨he.conversation, rfl⟩])
      · refine (hfits x (mem_cons_of_mem e hx)).imp (fun h => ?_) fun h => h.persistEvent hd
        rw [event_persistEvent, if_neg fun heq => hd.1 heq.2, h]

theorem putReceipts_of_fits (receipt : List Path) (hevents : ∀ e ∈ events, e.verifyForMembership m = .ok ())
    (hstored : ∀ e ∈ events, s.event m.conversationId e.event.eventId = some e.event)
    (hfits : ∀ e ∈ events, ∀ a, s.authorization m.conversationId e.event.eventId = some a → a = e)
    (hapart : events.Pairwise fun a b => a = b ∨ a.event.eventId ≠ b.event.eventId) :
    ∃ paths, (s.putReceipts m receipt events).2 = .ok paths := by
  induction events generalizing s receipt with
  | nil => exact ⟨receipt, rfl⟩
  | cons e rest ih =>
    have he := hevents e (.head _)
    have hvalid := fun x hx => hevents x (mem_cons_of_mem e hx)
    obtain ⟨hfirst, hrest⟩ := List.pairwise_cons.mp hapart
    unfold EventStore.putReceipts
    rw [putAuthorizedWithReceipt_eq he (hstored e (.head _)), putAuthorization_eq he]
    cases ha : s.authorization m.conversationId e.event.eventId with
    | some a =>
      obtain rfl := hfits e (.head _) a ha
      simp only [validateExistingAuthorization, if_true]
      exact ih _ hvalid (fun x hx => hstored x (mem_cons_of_mem a hx))
        (fun x hx => hfits x (mem_cons_of_mem a hx)) hrest
    | none =>
      refine ih _ hvalid (fun x hx => ?_) (fun x hx a hxa => ?_) hrest
      · rw [event_persistAuthorization]
        exact hstored x (mem_cons_of_mem e hx)
      · rw [authorization_persistAuthorization] at hxa
        split at hxa
        · next heq =>
          cases hxa
          exact (hfirst x hx).resolve_right fun hne => hne heq.2
        · exact hfits x (mem_cons_of_mem e hx) a hxa

/-- What an accepted batch adds. -/
structure Adds (m : ConversationMembershipSnapshot) (s s' : EventStore) (events : List AuthorizedEvent) : Prop where
  event : ∀ {id e}, s'.event m.conversationId id = some e ↔
    s.event m.conversationId id = some e ∨ ∃ a ∈ events, a.event.eventId = id ∧ a.event = e
  authorization : ∀ {id a}, s'.authorization m.conversationId id = some a ↔
    s.authorization m.conversationId id = some a ∨ a ∈ events ∧ a.event.eventId = id

theorem Adds.readable (h : Adds m s s' events)
    (hread : Readable s m.conversationId) : Readable s' m.conversationId := by
  intro id hne
  obtain ⟨e, he⟩ := Option.ne_none_iff_exists'.mp hne
  rcases h.event.mp he with he | ⟨a, ha, hid, _⟩
  · obtain ⟨a, ha⟩ := Option.ne_none_iff_exists'.mp (hread id (by simp [he]))
    simp [h.authorization.mpr (.inl ha)]
  · simp [h.authorization.mpr (.inr ⟨ha, hid⟩)]

theorem putAuthorizedBatch_of_fits (hs : Authorized s m) (hevents : ∀ e ∈ events, e.verifyForMembership m = .ok ())
    (hfits : ∀ e ∈ events, s.event m.conversationId e.event.eventId = some e.event ∨ Fresh s m e.event)
    (hauthorization : ∀ e ∈ events, ∀ a, s.authorization m.conversationId e.event.eventId = some a → a = e)
    (hapart : events.Pairwise fun a b => a = b ∨ Distinct a.event b.event) :
    ∃ s', s.putAuthorizedBatch m events = (s', .ok ()) ∧ Authorized s' m ∧ Adds m s s' events := by
  have hvalid : ∀ e ∈ events.map AuthorizedEvent.event, Valid m e := by
    intro e he
    obtain ⟨a, ha, rfl⟩ := mem_map.mp he
    exact valid_of_membership (hevents a ha)
  have hfirst := putBatch_spec hs hvalid
  have hok : (s.putBatch (events.map AuthorizedEvent.event)).2 = .ok () := by
    rw [putBatch_eq hs hvalid]
    refine putNewEvents_of_fits (remembers_positions s m) hvalid ?_
      (List.pairwise_map.mpr (hapart.imp fun h => h.imp_left (congrArg _)))
    intro e he
    obtain ⟨a, ha, rfl⟩ := mem_map.mp he
    exact hfits a ha
  rcases hr : s.putBatch (events.map AuthorizedEvent.event) with ⟨s₁, r⟩
  rw [hr] at hfirst hok
  obtain rfl : r = .ok () := hok
  have hstored : ∀ e ∈ events, s₁.event m.conversationId e.event.eventId = some e.event :=
    fun e he => hfirst.stored rfl _ (List.mem_map_of_mem he)
  have hsecond := putReceipts_spec [] events hfirst.authorized hevents hstored
  obtain ⟨paths, hpaths⟩ := putReceipts_of_fits [] hevents hstored
    (fun e he a ha => hauthorization e he a ((hfirst.extends'.authorization _).symm.trans ha))
    (hapart.imp fun h => h.imp_right And.left)
  refine ⟨(s₁.putReceipts m [] events).1, ?_, hsecond.authorized, ?_, ?_⟩
  · have hverify : events.forM (·.verifyForMembership m) = .ok () := Except.forM_eq_ok.mpr hevents
    rw [EventStore.putAuthorizedBatch, EventStore.putAuthorizedBatchWithReceipt, hverify]
    simp only [checked, Except.mapError, hr, hpaths, Except.map]
  · intro id e
    rw [hsecond.event]
    constructor
    · intro he
      rcases hfirst.source he with h | h
      · exact .inl h
      · obtain ⟨a, ha, rfl⟩ := mem_map.mp h
        exact .inr ⟨a, ha, (hfirst.authorized.files.event he).2.1, rfl⟩
    · rintro (h | ⟨a, ha, rfl, rfl⟩)
      · exact hfirst.extends'.event h
      · exact hstored a ha
  · intro id a
    constructor
    · intro ha
      rcases hsecond.source ha with h | h
      · exact .inl ((hfirst.extends'.authorization id).symm.trans h)
      · have hevent := (hsecond.authorized.authorization ha).1
        exact .inr ⟨h, (hsecond.authorized.files.event hevent).2.1⟩
    · rintro (h | ⟨ha, rfl⟩)
      · exact hsecond.authorization ((hfirst.extends'.authorization id).trans h)
      · exact hsecond.stored ⟨paths, hpaths⟩ a ha

theorem putAuthorizedBatch_of_fresh (hs : Authorized s m)
    (hevents : ∀ e ∈ events, e.verifyForMembership m = .ok ()) (hfresh : ∀ e ∈ events, Fresh s m e.event)
    (hapart : (events.map AuthorizedEvent.event).Pairwise Distinct) :
    ∃ s', s.putAuthorizedBatch m events = (s', .ok ()) ∧ Authorized s' m ∧ Adds m s s' events := by
  refine putAuthorizedBatch_of_fits hs hevents (fun e he => .inr (hfresh e he)) (fun e he a ha => ?_)
    ((List.pairwise_map.mp hapart).imp .inr)
  cases (hfresh e he).id.symm.trans (hs.authorization ha).1

end Kilogram.Store
