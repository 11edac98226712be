import Kilogram.Sync.Exchange

/-!
# Peers that are not trusted

Whatever its peers send, a store keeps what it has, and what it gains are valid events.
-/

namespace Kilogram.Sync
open Kilogram Store Session
variable [Authority] {m : ConversationMembershipSnapshot} {s s₁ s₂ : EventStore}

/-- What a store is sent: a diff in answer to the ids it advertised, or the events of a round it serves. -/
inductive Message where
  | diff (advertised : List Id) (d : SyncDiff)
  | batch (r : ServerInventoryRound) (b : SyncEventBatch)

def Session.receive (σ : Session) (s : EventStore) : Message → EventStore
  | .diff advertised d => (σ.acceptDiff s advertised d).1
  | .batch r b => (σ.completeRound s r b).1

/-- The store is still in order, and nothing of it was replaced or lost. -/
structure Keeps (m : ConversationMembershipSnapshot) (s s' : EventStore) : Prop where
  authorized : Authorized s' m
  event : ∀ {id e}, s.event m.conversationId id = some e → s'.event m.conversationId id = some e
  authorization : ∀ {id a}, s.authorization m.conversationId id = some a →
    s'.authorization m.conversationId id = some a

theorem Keeps.refl (h : Authorized s m) : Keeps m s s := ⟨h, fun h => h, fun h => h⟩

theorem Keeps.trans (h : Keeps m s s₁) (h' : Keeps m s₁ s₂) : Keeps m s s₂ :=
  ⟨h'.authorized, fun he => h'.event (h.event he), fun ha => h'.authorization (h.authorization ha)⟩

theorem keeps_putAuthorizedBatch (h : Authorized s m) (events : List AuthorizedEvent) :
    Keeps m s (s.putAuthorizedBatch m events).1 := by
  unfold EventStore.putAuthorizedBatch EventStore.putAuthorizedBatchWithReceipt
  cases hverify : events.forM (·.verifyForMembership m) with
  | error x => exact .refl h
  | ok u =>
    have hall := Except.forM_eq_ok.mp hverify
    have hfirst := putBatch_spec h (valid_of_batch hall)
    rcases hr : s.putBatch (events.map AuthorizedEvent.event) with ⟨s₁, r⟩
    rw [hr] at hfirst
    have hkeeps : Keeps m s s₁ :=
      ⟨hfirst.authorized, hfirst.extends'.event, fun ha => (hfirst.extends'.authorization _).trans ha⟩
    cases r with
    | error x => simpa [checked, Except.mapError, hr] using hkeeps
    | ok u =>
      have hstored : ∀ e ∈ events, s₁.event m.conversationId e.event.eventId = some e.event :=
        fun e he => hfirst.stored rfl _ (List.mem_map_of_mem he)
      have hsecond := putReceipts_spec [] events hfirst.authorized hall hstored
      have hrest : Keeps m s₁ (s₁.putReceipts m [] events).1 :=
        ⟨hsecond.authorized, fun he => (hsecond.event _).trans he, hsecond.authorization⟩
      simpa [checked, Except.mapError, hr] using hkeeps.trans hrest

theorem keeps_receive (σ : Session) (h : Authorized s σ.membership) (message : Message) :
    Keeps σ.membership s (σ.receive s message) := by
  cases message with
  | diff advertised d =>
    rw [Session.receive, Session.acceptDiff]
    split
    · exact .refl h
    · have hput := keeps_putAuthorizedBatch h d.content.events
      generalize s.putAuthorizedBatch σ.membership d.content.events = r at hput ⊢
      obtain ⟨_, _ | _⟩ := r <;> exact hput
  | batch r b =>
    rw [Session.receive, Session.completeRound]
    split
    · exact .refl h
    · have hput := keeps_putAuthorizedBatch h b.events
      generalize s.putAuthorizedBatch σ.membership b.events = r at hput ⊢
      obtain ⟨_, _ | _⟩ := r <;> exact hput

/-- No peer can replace or forge an event: after any messages the files of the store are in order, and
whatever comes later leaves the events and authorizations it has as they are. -/
theorem peers_cannot_replace_events (σ : Session) (before rest : List Message) :
    Keeps σ.membership (before.foldl σ.receive ∅) ((before ++ rest).foldl σ.receive ∅) := by
  have hrun (s : EventStore) (h : Authorized s σ.membership) (ms : List Message) :
      Keeps σ.membership s (ms.foldl σ.receive s) := by
    induction ms generalizing s with
    | nil => exact .refl h
    | cons message ms ih =>
      have hstep := keeps_receive σ h message
      exact hstep.trans (ih _ hstep.authorized)
  rw [List.foldl_append]
  exact hrun _ (hrun ∅ (authorized_empty _) before).authorized rest

end Kilogram.Sync
