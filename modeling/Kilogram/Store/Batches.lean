import Kilogram.Store.Passes

/-!
# Refused batches

A batch that is refused has written something as soon as its first event that is not yet stored was
accepted.
-/

namespace Kilogram.Store
open Kilogram Std
open Option (ne_none_iff_exists')
variable [Authority] {s : EventStore} {m : ConversationMembershipSnapshot}

/-- A call of the store, as a peer or a user makes it. -/
inductive Call where
  | put (event : AuthorizedEvent)
  | putBatch (events : List AuthorizedEvent)

def Call.run (m : ConversationMembershipSnapshot) (s : EventStore) : Call → EventStore × Result Unit
  | .put e =>
    let (s, r) := s.putAuthorized m e
    (s, r.map fun _ => ())
  | .putBatch events => s.putAuthorizedBatch m events

theorem Call.run_put (m : ConversationMembershipSnapshot) (s : EventStore) (e : AuthorizedEvent) :
    Call.run m s (.put e) = ((s.putAuthorizedWithReceipt m e).1,
      (s.putAuthorizedWithReceipt m e).2.map fun _ => ()) := by
  unfold Call.run EventStore.putAuthorized
  dsimp only
  cases (s.putAuthorizedWithReceipt m e).2 <;> rfl

/-- Two events that differ and claim one id or one place in the sequence of an author. -/
def Clash (a b : AuthorizedEvent) : Prop :=
  a ≠ b ∧ (a.event.eventId = b.event.eventId ∨ a.event.position = b.event.position)

/-- An event of the batch clashes with one that is stored or with another one of the batch. -/
def Clashes (m : ConversationMembershipSnapshot) (s : EventStore) (events : List AuthorizedEvent) : Prop :=
  ∃ e ∈ events, ∃ a, (s.authorization m.conversationId a.event.eventId = some a ∨ a ∈ events) ∧ Clash a e

/-- A batch of valid events does harm when it clashes and its first event that the store does not hold
does not clash with the store. -/
def Harmful (m : ConversationMembershipSnapshot) (s : EventStore) : Call → Prop
  | .put _ => False
  | .putBatch events => (∀ e ∈ events, e.verifyForMembership m = .ok ()) ∧
      Clashes m s events ∧ ∃ e, firstNew s m (events.map AuthorizedEvent.event) = some e ∧ ¬ Offends s m e

/-- What a call does to a store that can be read. -/
structure Outcome (m : ConversationMembershipSnapshot) (s : EventStore) (call : Call) : Prop where
  authorized : Authorized (call.run m s).1 m
  authorization : ∀ {id a}, s.authorization m.conversationId id = some a →
    (call.run m s).1.authorization m.conversationId id = some a
  accepted : (call.run m s).2 = .ok () → Readable (call.run m s).1 m.conversationId
  refused : ∀ {x}, (call.run m s).2 = .error x → ¬ Harmful m s call → (call.run m s).1 = s
  harmed : Harmful m s call → ∃ e, s.event m.conversationId e.eventId ≠ some e ∧
    (call.run m s).1.event m.conversationId e.eventId = some e

variable {call : Call} {e : SignedEvent} {calls before : List Call}

theorem Outcome.of_unchanged {r : Result Unit} (hs : Authorized s m)
    (hread : Readable s m.conversationId) (hrun : call.run m s = (s, r)) (hno : ¬ Harmful m s call) :
    Outcome m s call := by
  constructor
  · rw [hrun]
    exact hs
  · rw [hrun]
    exact fun h => h
  · rw [hrun]
    exact fun _ => hread
  · rw [hrun]
    exact fun _ _ => rfl
  · exact fun h => absurd h hno

theorem put_of_offends (hs : Authorized s m) (he : Valid m e)
    (hoff : Offends s m e) : ∃ x, s.put e = (s, .error x) := by
  have hconv : (s.directory e.conversationId).events[e.eventId]? = s.event m.conversationId e.eventId := by
    rw [he.conversation]
    rfl
  unfold EventStore.put
  rw [he.verify, hconv]
  simp only [checked, Except.mapError]
  rcases hoff with ⟨e', he', hne⟩ | ⟨hnone, id, e', he', hpos⟩
  · rw [he']
    simp only [validateExistingEvent, if_neg hne]
    exact ⟨_, rfl⟩
  · rw [hnone, he.conversation, hs.files.loadConversation]
    have hfind : ((s.stored m.conversationId).find? (·.event.position = e.position)) ≠ none := by
      rw [ne_eq, List.find?_eq_none]
      intro hall
      exact hall ⟨id, e'⟩ (mem_stored.mpr he') (decide_eq_true hpos)
    obtain ⟨x, hx⟩ := ne_none_iff_exists'.mp hfind
    simp only [hx]
    exact ⟨_, rfl⟩

theorem put_of_fresh (hs : Authorized s m) (he : Valid m e) (hf : Fresh s m e) :
    s.put e = (s.persistEvent e, .ok .inserted) := by
  have hconv : (s.directory e.conversationId).events[e.eventId]? = none := by
    rw [he.conversation]
    exact hf.id
  unfold EventStore.put
  rw [he.verify, hconv]
  simp only [checked, Except.mapError]
  rw [he.conversation, hs.files.loadConversation]
  have hfind : ((s.stored m.conversationId).find? (·.event.position = e.position)) = none := by
    rw [List.find?_eq_none]
    intro x hx
    simpa using hf.position (mem_stored.mp hx)
  simp only [hfind]

theorem outcome_put (e : AuthorizedEvent) (hs : Authorized s m)
    (hread : Readable s m.conversationId) : Outcome m s (.put e) := by
  have hno : ¬ Harmful m s (.put e) := fun h => h
  cases hverify : e.verifyForMembership m with
  | error x =>
    refine .of_unchanged (r := .error (.protocol x)) hs hread ?_ hno
    rw [Call.run_put, EventStore.putAuthorizedWithReceipt, hverify]
    rfl
  | ok u =>
    have he := valid_of_membership hverify
    rcases stored_or_offends_or_fresh s m e.event with hstored | hoff | hfresh
    · obtain ⟨a, ha⟩ := ne_none_iff_exists'.mp (hread e.event.eventId (by simp [hstored]))
      have hrun : ∃ r, Call.run m s (.put e) = (s, r) := by
        rw [Call.run_put, putAuthorizedWithReceipt_eq hverify hstored, putAuthorization_eq hverify, ha]
        dsimp only
        cases validateExistingAuthorization a e with
        | error x | ok _ => exact ⟨_, rfl⟩
      obtain ⟨r, hr⟩ := hrun
      exact .of_unchanged hs hread hr hno
    · obtain ⟨x, hx⟩ := put_of_offends hs he hoff
      refine .of_unchanged (r := .error x) hs hread ?_ hno
      rw [Call.run_put, EventStore.putAuthorizedWithReceipt, hverify]
      simp only [checked, Except.mapError, hx]
      rfl
    · -- both files are written
      have hnone : s.authorization m.conversationId e.event.eventId = none := by
        by_contra hne
        obtain ⟨a, ha⟩ := ne_none_iff_exists'.mp hne
        cases hfresh.id.symm.trans (hs.authorization ha).1
      have hs₁ := hs.persistEvent he hfresh
      have hstored : (s.persistEvent e.event).event m.conversationId e.event.eventId = some e.event := by
        rw [event_persistEvent, if_pos ⟨he.conversation, rfl⟩]
      have hrun : Call.run m s (.put e) = ((s.persistEvent e.event).persistAuthorization e, .ok ()) := by
        rw [Call.run_put, EventStore.putAuthorizedWithReceipt, hverify]
        simp only [checked, Except.mapError, put_of_fresh hs he hfresh]
        rw [putAuthorization_eq hverify, authorization_persistEvent, hnone]
        rfl
      have hget (id : Id) : ((s.persistEvent e.event).persistAuthorization e).authorization
          m.conversationId id = if e.event.eventId = id then some e
            else s.authorization m.conversationId id := by
        rw [authorization_persistAuthorization, authorization_persistEvent]
        simp only [he.conversation, true_and]
      refine ⟨?_, ?_, ?_, ?_, fun h => absurd h hno⟩
      · rw [hrun]
        exact hs₁.persistAuthorization hverify hstored
      · intro id a ha
        rw [hrun, hget, if_neg, ha]
        rintro rfl
        cases hnone.symm.trans ha
      · intro _ id hid
        rw [hrun] at hid ⊢
        rw [event_persistAuthorization, event_persistEvent] at hid
        rw [hget]
        split
        · simp
        · next hne =>
          rw [if_neg fun h => hne h.2] at hid
          exact hread id hid
      · rw [hrun]
        exact fun h => absurd h (by simp)

theorem firstNew_eq_some {events : List SignedEvent}
    (h : firstNew s m events = some e) : s.event m.conversationId e.eventId ≠ some e := by
  simpa using List.find?_some h

theorem Call.run_putBatch (m : ConversationMembershipSnapshot) (s : EventStore) (events : List AuthorizedEvent) :
    Call.run m s (.putBatch events) = ((s.putAuthorizedBatchWithReceipt m events).1,
      (s.putAuthorizedBatchWithReceipt m events).2.map fun _ => ()) := rfl

theorem accepted_putBatch {events : List AuthorizedEvent} (hs : Authorized s m)
    (hevents : ∀ e ∈ events, e.verifyForMembership m = .ok ())
    (hok : (Call.run m s (.putBatch events)).2 = .ok ()) : let s' := (Call.run m s (.putBatch events)).1
    Authorized s' m ∧ (∀ {id a}, s.authorization m.conversationId id = some a →
      s'.authorization m.conversationId id = some a) ∧
    ∀ e ∈ events, s'.authorization m.conversationId e.event.eventId = some e := by
  have hverify : events.forM (·.verifyForMembership m) = .ok () := Except.forM_eq_ok.mpr hevents
  have hvalid := valid_of_batch hevents
  have hfirst := putBatch_spec hs hvalid
  rw [Call.run_putBatch, EventStore.putAuthorizedBatchWithReceipt, hverify] at hok ⊢
  rcases hr : s.putBatch (events.map AuthorizedEvent.event) with ⟨s₁, x | u⟩ <;> rw [hr] at hfirst
  · simp [checked, Except.mapError, hr, Except.map] at hok
  · simp only [checked, Except.mapError, hr] at hok ⊢
    have hsecond := putReceipts_spec [] events hfirst.authorized hevents fun e he =>
      hfirst.stored rfl _ (List.mem_map_of_mem he)
    refine ⟨hsecond.authorized, fun ha => hsecond.authorization ((hfirst.extends'.authorization _).trans ha), ?_⟩
    cases hpaths : (s₁.putReceipts m [] events).2 with
    | error x => simp [hpaths, Except.map] at hok
    | ok paths => exact hsecond.stored ⟨paths, hpaths⟩

theorem Authorized.not_clash (hs : Authorized s m) {a b : AuthorizedEvent}
    (ha : s.authorization m.conversationId a.event.eventId = some a)
    (hb : s.authorization m.conversationId b.event.eventId = some b) : ¬ Clash a b := by
  rintro ⟨hne, hid | hposition⟩
  · exact hne (Option.some.inj ((hid ▸ ha).symm.trans hb))
  · have hid := hs.files.position (hs.authorization ha).1 (hs.authorization hb).1 hposition
    exact hne (Option.some.inj ((hid ▸ ha).symm.trans hb))

/-- A batch of valid events is refused if and only if it clashes. -/
theorem putAuthorizedBatch_refused_iff {events : List AuthorizedEvent} (hs : Authorized s m)
    (hread : Readable s m.conversationId) (hevents : ∀ e ∈ events, e.verifyForMembership m = .ok ()) :
    (∃ x, (Call.run m s (.putBatch events)).2 = .error x) ↔ Clashes m s events := by
  constructor
  · rintro ⟨x, hx⟩
    by_contra hno
    have hagree {e a : AuthorizedEvent} (he : e ∈ events)
        (ha : s.authorization m.conversationId a.event.eventId = some a ∨ a ∈ events)
        (hclaim : a.event.eventId = e.event.eventId ∨ a.event.position = e.event.position) : a = e := by
      by_contra hne
      exact hno ⟨e, he, a, ha, hne, hclaim⟩
    -- what is stored at an id is authorized there
    have hat {id : Id} {e' : SignedEvent} (he' : s.event m.conversationId id = some e') :
        ∃ a, s.authorization m.conversationId a.event.eventId = some a ∧ a.event.eventId = id ∧ a.event = e' := by
      obtain ⟨a, ha⟩ := ne_none_iff_exists'.mp (hread id (by simp [he']))
      have hevent := (hs.authorization ha).1
      obtain rfl := (hs.files.event hevent).2.1
      exact ⟨a, ha, rfl, Option.some.inj (hevent.symm.trans he')⟩
    suffices hput : ∃ s', s.putAuthorizedBatch m events = (s', .ok ()) ∧ Authorized s' m ∧ Adds m s s' events by
      obtain ⟨s', hput, -⟩ := hput
      cases hx.symm.trans (congrArg Prod.snd hput)
    refine putAuthorizedBatch_of_fits hs hevents (fun e he => ?_) (fun e he a ha => ?_)
      (List.pairwise_of_forall_mem_list fun a ha b hb => ?_)
    · cases hid : s.event m.conversationId e.event.eventId with
      | some e' =>
        obtain ⟨a, ha, haid, rfl⟩ := hat hid
        rw [hagree he (.inl ha) (.inl haid)]
        exact .inl rfl
      | none =>
        refine .inr ⟨hid, fun {id e'} he' hposition => ?_⟩
        obtain ⟨a, ha, rfl, rfl⟩ := hat he'
        rw [hagree he (.inl ha) (.inr hposition), hid] at he'
        cases he'
    · have haid := (hs.files.event (hs.authorization ha).1).2.1
      exact hagree he (.inl (haid ▸ ha)) (.inl haid)
    · by_cases hab : a = b
      · exact .inl hab
      · exact .inr ⟨fun h => hab (hagree hb (.inr ha) (.inl h)), fun h => hab (hagree hb (.inr ha) (.inr h))⟩
  · rintro ⟨e, he, a, ha, hclash⟩
    cases hr : (Call.run m s (.putBatch events)).2 with
    | error x => exact ⟨x, rfl⟩
    | ok u =>
      obtain ⟨hauthorized, hkept, hstored⟩ := accepted_putBatch hs hevents hr
      exact absurd hclash (hauthorized.not_clash (ha.elim hkept (hstored a)) (hstored e he))

theorem outcome_putBatch (events : List AuthorizedEvent) (hs : Authorized s m)
    (hread : Readable s m.conversationId) : Outcome m s (.putBatch events) := by
  cases hverify : events.forM (·.verifyForMembership m) with
  | error x =>
    refine .of_unchanged (r := .error (.protocol x)) hs hread ?_ ?_
    · rw [Call.run_putBatch, EventStore.putAuthorizedBatchWithReceipt, hverify]
      rfl
    · rintro ⟨hall, _⟩
      exact absurd (hverify.symm.trans ((Except.forM_eq_ok (u := ())).mpr hall)) (by simp)
  | ok u =>
    have hall := Except.forM_eq_ok.mp hverify
    have hvalid := valid_of_batch hall
    have hclashes := (putAuthorizedBatch_refused_iff hs hread hall).mp
    have hfirst := putBatch_spec hs hvalid
    rcases hr : s.putBatch (events.map AuthorizedEvent.event) with ⟨s₁, r⟩
    rw [hr] at hfirst
    -- a new event that is accepted is in the store after the first pass
    have hwritten {e : SignedEvent} (hnew : firstNew s m (events.map AuthorizedEvent.event) = some e)
        (hoff : ¬ Offends s m e) : s₁.event m.conversationId e.eventId = some e := by
      rcases stored_or_offends_or_fresh s m e with h | h | h
      · exact absurd h (firstNew_eq_some hnew)
      · exact absurd h hoff
      · exact hfirst.written hnew h
    cases r with
    | error x =>
      have hrun : Call.run m s (.putBatch events) = (s₁, .error x) := by
        rw [Call.run_putBatch, EventStore.putAuthorizedBatchWithReceipt, hverify]
        simp only [checked, Except.mapError, hr]
        rfl
      refine ⟨?_, ?_, ?_, ?_, ?_⟩
      · rw [hrun]
        exact hfirst.authorized
      · rw [hrun]
        exact fun ha => (hfirst.extends'.authorization _).trans ha
      · rw [hrun]
        exact fun h => absurd h (by simp)
      · intro _ hx hno
        rw [hrun] at hx ⊢
        cases hnew : firstNew s m (events.map AuthorizedEvent.event) with
        | none => exact congrArg Prod.fst (hfirst.nothing hnew)
        | some e =>
          by_cases hoff : Offends s m e
          · exact (hfirst.refused hnew hoff).1
          · exact absurd ⟨hall, hclashes ⟨x, congrArg Prod.snd hrun⟩, e, hnew, hoff⟩ hno
      · rintro ⟨_, _, e, hnew, hoff⟩
        rw [hrun]
        exact ⟨e, firstNew_eq_some hnew, hwritten hnew hoff⟩
    | ok u =>
      have hstored : ∀ e ∈ events, s₁.event m.conversationId e.event.eventId = some e.event :=
        fun e he => hfirst.stored rfl _ (List.mem_map_of_mem he)
      have hsecond := putReceipts_spec [] events hfirst.authorized hall hstored
      have hrun : Call.run m s (.putBatch events) = ((s₁.putReceipts m [] events).1,
          (s₁.putReceipts m [] events).2.map fun _ => ()) := by
        rw [Call.run_putBatch, EventStore.putAuthorizedBatchWithReceipt, hverify]
        simp only [checked, Except.mapError, hr]
      refine ⟨?_, ?_, ?_, ?_, ?_⟩
      · rw [hrun]
        exact hsecond.authorized
      · rw [hrun]
        exact fun ha => hsecond.authorization ((hfirst.extends'.authorization _).trans ha)
      · intro hok id hid
        rw [hrun] at hok hid ⊢
        obtain ⟨paths, hpaths⟩ : ∃ paths, (s₁.putReceipts m [] events).2 = .ok paths := by
          cases h : (s₁.putReceipts m [] events).2 with
          | error x => simp [h, Except.map] at hok
          | ok paths => exact ⟨paths, rfl⟩
        rw [hsecond.event] at hid
        obtain ⟨e, he⟩ := ne_none_iff_exists'.mp hid
        rcases hfirst.source he with hold | hbatch
        · obtain ⟨a, ha⟩ := ne_none_iff_exists'.mp (hread id (by simp [hold]))
          have := hsecond.authorization ((hfirst.extends'.authorization id).trans ha)
          simp [this]
        · obtain ⟨a, ha, rfl⟩ := List.mem_map.mp hbatch
          have := hsecond.stored ⟨paths, hpaths⟩ a ha
          rw [(hfirst.authorized.files.event he).2.1] at this
          simp [this]
      · intro x hx hno
        have hnew : firstNew s m (events.map AuthorizedEvent.event) = none := by
          by_contra hne
          obtain ⟨e, hnew⟩ := ne_none_iff_exists'.mp hne
          by_cases hoff : Offends s m e
          · obtain ⟨_, y, hy⟩ := hfirst.refused hnew hoff
            exact absurd hy (by simp)
          · exact hno ⟨hall, hclashes ⟨x, hx⟩, e, hnew, hoff⟩
        have hs₁ : s₁ = s := congrArg Prod.fst (hfirst.nothing hnew)
        rw [hrun]
        refine (hsecond.nothing ?_).trans hs₁
        intro e he
        rw [hs₁]
        apply hread
        rw [← hs₁, hstored e he]
        simp
      · rintro ⟨_, _, e, hnew, hoff⟩
        rw [hrun]
        exact ⟨e, firstNew_eq_some hnew, (hsecond.event _).trans (hwritten hnew hoff)⟩

theorem outcome (call : Call) (hs : Authorized s m) (hread : Readable s m.conversationId) : Outcome m s call := by
  cases call with
  | put e => exact outcome_put e hs hread
  | putBatch events => exact outcome_putBatch events hs hread

/-- The store after a run of calls. -/
def runCalls (m : ConversationMembershipSnapshot) (calls : List Call) : EventStore :=
  calls.foldl (fun s call => (call.run m s).1) ∅

theorem runCalls_append (calls : List Call) (call : Call) :
    runCalls m (calls ++ [call]) = (call.run m (runCalls m calls)).1 := by
  simp [runCalls]

def load (m : ConversationMembershipSnapshot) (s : EventStore) : Result (List StoredAuthorizedEvent) :=
  s.loadAuthorizedConversation m.conversationId m

/-- A conversation survives a run of calls: it can be read at any time, what was returned once is
returned later, no two events take one place in the sequence of an author, and a refused call adds
nothing. -/
structure Survives (m : ConversationMembershipSnapshot) (calls : List Call) : Prop where
  readable : ∀ before after, calls = before ++ after → ∃ vs, load m (runCalls m before) = .ok vs ∧
    (vs.map (·.event.event.position)).Nodup
  kept : ∀ before between after, calls = before ++ between ++ after → ∀ vs vs',
    load m (runCalls m before) = .ok vs → load m (runCalls m (before ++ between)) = .ok vs' → ∀ x ∈ vs, x ∈ vs'
  refused : ∀ before call after, calls = before ++ call :: after →
    (∃ x, (call.run m (runCalls m before)).2 = .error x) → ∀ vs vs',
      load m (runCalls m before) = .ok vs → load m (runCalls m (before ++ [call])) = .ok vs' → ∀ x ∈ vs', x ∈ vs

/-- No call of the run does harm. -/
def Harmless (m : ConversationMembershipSnapshot) (calls : List Call) : Prop :=
  ∀ before call after, calls = before ++ call :: after → ¬ Harmful m (runCalls m before) call

theorem Outcome.readable (h : Outcome m s call) (hread : Readable s m.conversationId)
    (hno : ¬ Harmful m s call) : Readable (call.run m s).1 m.conversationId := by
  cases hr : (call.run m s).2 with
  | ok u => exact h.accepted hr
  | error x =>
    rw [h.refused hr hno]
    exact hread

theorem run_readable (h : Harmless m calls) :
    Authorized (runCalls m calls) m ∧ Readable (runCalls m calls) m.conversationId := by
  induction calls using List.reverseRecOn with
  | nil => exact ⟨authorized_empty m, readable_empty _⟩
  | append_singleton calls call ih =>
    have hbefore : Harmless m calls := by
      intro before call' after heq
      exact h before call' (after ++ [call]) (by rw [heq]; simp)
    obtain ⟨hs, hread⟩ := ih hbefore
    have hout := outcome call hs hread
    rw [runCalls_append]
    exact ⟨hout.authorized, hout.readable hread (h calls call [] rfl)⟩

theorem Harmless.take {after : List Call} (h : Harmless m (before ++ after)) : Harmless m before := by
  intro pre call post heq
  exact h pre call (post ++ after) (by rw [heq]; simp)

theorem run_authorization {between : List Call} (h : Harmless m (before ++ between)) {id : Id}
    {a : AuthorizedEvent} (ha : (runCalls m before).authorization m.conversationId id = some a) :
    (runCalls m (before ++ between)).authorization m.conversationId id = some a := by
  induction between using List.reverseRecOn with
  | nil => rwa [List.append_nil]
  | append_singleton calls call ih =>
    rw [← List.append_assoc] at h ⊢
    obtain ⟨hs, hread⟩ := run_readable h.take
    rw [runCalls_append]
    exact (outcome call hs hread).authorization (ih h.take)

/-- A call that does harm makes the conversation unreadable or adds an event. -/
theorem Outcome.not_harmful (h : Outcome m s call) (hm : m.verify = .ok ())
    (hs : Authorized s m) {vs vs' : List StoredAuthorizedEvent} (hvs : load m s = .ok vs)
    (hvs' : load m (call.run m s).1 = .ok vs') (hadd : ∀ x ∈ vs', x ∈ vs) : ¬ Harmful m s call := by
  intro hharm
  obtain ⟨e, hnew, hwritten⟩ := h.harmed hharm
  have hread := (h.authorized.load_isOk hm).mp ⟨vs', hvs'⟩
  obtain ⟨a, ha⟩ := ne_none_iff_exists'.mp (hread e.eventId (by simp [hwritten]))
  have hevent := Option.some.inj ((h.authorized.authorization ha).1.symm.trans hwritten)
  have hmem := hadd ⟨e.eventId, a⟩ ((h.authorized.mem_load hvs').mpr ha)
  have hold := (hs.authorization ((hs.mem_load hvs).mp hmem)).1
  exact hnew (hold.trans (congrArg some hevent))

theorem Harmless.append (h : Harmless m calls)
    (hcall : ¬ Harmful m (runCalls m calls) call) : Harmless m (calls ++ [call]) := by
  intro before call' after heq
  induction after using List.reverseRecOn with
  | nil =>
    obtain ⟨rfl, hlast⟩ := List.append_inj' heq rfl
    obtain rfl := (List.cons.inj hlast).1
    exact hcall
  | append_singleton after last _ =>
    rw [← List.cons_append, ← List.append_assoc] at heq
    exact h before call' after (List.append_inj' heq rfl).1

theorem Survives.take {after : List Call} (h : Survives m (before ++ after)) : Survives m before where
  readable pre post heq := h.readable pre (post ++ after) (by rw [heq, List.append_assoc])
  kept pre mid post heq := h.kept pre mid (post ++ after) (by rw [heq, List.append_assoc])
  refused pre call post heq := h.refused pre call (post ++ after) (by rw [heq]; simp)

theorem conversation_survives_iff (m : ConversationMembershipSnapshot) (hm : m.verify = .ok ())
    (calls : List Call) : Survives m calls ↔ Harmless m calls := by
  constructor
  · intro h
    induction calls using List.reverseRecOn with
    | nil => exact fun before call after heq => absurd heq (by simp)
    | append_singleton calls call ih =>
      have hbefore := ih h.take
      obtain ⟨hs, hread⟩ := run_readable hbefore
      have hout := outcome call hs hread
      apply hbefore.append
      intro hharm
      obtain ⟨vs, hvs, _⟩ := h.readable calls [call] rfl
      obtain ⟨vs', hvs', _⟩ := h.readable (calls ++ [call]) [] (by simp)
      have hrefused : ∃ x, (call.run m (runCalls m calls)).2 = .error x := by
        cases call with
        | put e => exact hharm.elim
        | putBatch events => exact (putAuthorizedBatch_refused_iff hs hread hharm.1).mpr hharm.2.1
      have hadd := h.refused calls call [] rfl hrefused vs vs' hvs hvs'
      rw [runCalls_append] at hvs'
      exact hout.not_harmful hm hs hvs hvs' hadd hharm
  · intro h
    refine ⟨?_, ?_, ?_⟩
    · rintro before after rfl
      obtain ⟨hs, hread⟩ := run_readable h.take
      obtain ⟨vs, hvs⟩ := (hs.load_isOk hm).mpr hread
      exact ⟨vs, hvs, (load_eq_ok.mp hvs).2.positions_nodup hs.files⟩
    · rintro before between after rfl vs vs' hvs hvs' x hx
      obtain ⟨hs, _⟩ := run_readable (h.take).take
      obtain ⟨hs', _⟩ := run_readable h.take
      exact (hs'.mem_load hvs').mpr (run_authorization h.take ((hs.mem_load hvs).mp hx))
    · rintro before call after rfl ⟨y, hy⟩ vs vs' hvs hvs' x hx
      have hno := h before call after rfl
      obtain ⟨hs, hread⟩ := run_readable h.take
      rw [runCalls_append, (outcome call hs hread).refused hy hno] at hvs'
      rwa [Except.ok.inj (hvs.symm.trans hvs')]

def sampleMembership : ConversationMembershipSnapshot := ⟨1, [3], []⟩

/-- Acknowledgements of one author with the same sequence number. -/
def sampleEvent (id : Id) : AuthorizedEvent := ⟨⟨⟨5, 1, 2, 0, [], .acknowledgement id⟩, []⟩, ⟨2, 3, []⟩, ⟨[]⟩⟩

/-- An acknowledgement of another author. -/
def otherEvent (id : Id) : AuthorizedEvent := ⟨⟨⟨5, 1, 4, 0, [], .acknowledgement id⟩, []⟩, ⟨4, 3, []⟩, ⟨[]⟩⟩

/-- One event, a batch that holds it and a new one, and a batch whose first new event is refused. -/
def sampleCalls : List Call := [.put (sampleEvent 7), .putBatch [sampleEvent 7, otherEvent 9], .putBatch [sampleEvent 8]]

omit [Authority] in
theorem conversation_survives_iff_sample : let _ := Authority.plain
    sampleMembership.verify = .ok () ∧
      (Survives sampleMembership sampleCalls ↔ Harmless sampleMembership sampleCalls) ∧
      Survives sampleMembership sampleCalls := by
  intro _
  have hnil : Harmless sampleMembership [] := fun before call after heq => absurd heq (by simp)
  have hput : Harmless sampleMembership [.put (sampleEvent 7)] := hnil.append fun h => h
  have hbatch : Harmless sampleMembership [.put (sampleEvent 7), .putBatch [sampleEvent 7, otherEvent 9]] := by
    refine hput.append ?_
    rintro ⟨hall, hclashes, -⟩
    obtain ⟨hs, hread⟩ := run_readable hput
    obtain ⟨x, hx⟩ := (putAuthorizedBatch_refused_iff hs hread hall).mpr hclashes
    have hok : (Call.run sampleMembership (runCalls sampleMembership [.put (sampleEvent 7)])
        (.putBatch [sampleEvent 7, otherEvent 9])).2 = .ok () := by decide +kernel
    cases hok.symm.trans hx
  have hrefused : Harmless sampleMembership sampleCalls := by
    refine hbatch.append ?_
    rintro ⟨-, -, e, he, hoff⟩
    have hfirst : firstNew (runCalls sampleMembership [.put (sampleEvent 7), .putBatch [sampleEvent 7, otherEvent 9]])
        sampleMembership [(sampleEvent 8).event] = some (sampleEvent 8).event := by decide +kernel
    cases hfirst.symm.trans he
    exact hoff (.inr ⟨by decide +kernel, (sampleEvent 7).event.eventId, (sampleEvent 7).event, by decide +kernel, rfl⟩)
  have hiff := conversation_survives_iff sampleMembership rfl sampleCalls
  exact ⟨rfl, hiff, hiff.mpr hrefused⟩

omit [Authority] in
/-- A batch with both of them is refused, and the conversation cannot be read any more. -/
theorem equivocating_batch_not_survived : let _ := Authority.plain
    let first := (sampleEvent 7).event.eventId
    let call := Call.putBatch [sampleEvent 7, sampleEvent 8]
    (call.run sampleMembership ∅).2 = .error (.writerSequenceConflict 2 0 first (sampleEvent 8).event.eventId) ∧
      load sampleMembership (runCalls sampleMembership [call]) =
        .error (.eventAuthorizationMissing (.authorization 1 first) first) ∧
      ¬ Survives sampleMembership [call] := by
  intro _ first call
  have hload : load sampleMembership (runCalls sampleMembership [call]) =
      .error (.eventAuthorizationMissing (.authorization 1 first) first) := by
    decide +kernel
  refine ⟨by decide +kernel, hload, ?_⟩
  intro h
  obtain ⟨vs, hvs, _⟩ := h.readable [call] [] rfl
  cases hload.symm.trans hvs

end Kilogram.Store
