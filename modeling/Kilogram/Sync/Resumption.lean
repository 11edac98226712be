import Kilogram.Store.Batches
import Kilogram.Sync.Convergence

/-!
# Connections that break

A sync may stop between any two messages. A later sync goes on from what was stored by then: what was moved
and what is still missing are together what was missing at first.
-/

namespace Kilogram.Sync
open Kilogram Store Std Session
variable [Authority] {σ : Session} {a b a' b' a₁ b₁ a₂ b₂ : EventStore}

/-- The stores after any number of connections, each of which may break: between two rounds, or in a
round after the client has stored its events and before the server has. What a side stores it has read
from a frame within the limit of the wire. -/
inductive Session.Broken (σ : Session) (a b : EventStore) : EventStore → EventStore → Prop where
  | start : Broken σ a b a b
  | round {a₁ b₁ a₂ b₂ : EventStore} {f : Frames} {more : Bool} : Broken σ a b a₁ b₁ →
      σ.round a₁ b₁ = .ok (a₂, b₂, f, more) → f.Fits → Broken σ a b a₂ b₂
  | half {a₁ b₁ : EventStore} {i : SignedSyncInventory} {advertised : List Id} {r : ServerInventoryRound} :
      Broken σ a b a₁ b₁ → σ.beginRound a₁ = .ok (i, advertised) → σ.acceptInventory b₁ i = .ok r →
      r.diff.encode.length ≤ maxWireMessageBytes → Broken σ a b (σ.acceptDiff a₁ advertised r.diff).1 b₁

/-- What was moved and what is still missing are what was missing at the start. -/
structure Moved (σ : Session) (a b a₁ b₁ : EventStore) : Prop where
  syncable : Syncable σ a₁ b₁
  client : ∃ xs, Takes σ a a₁ xs ∧ xs ++ σ.missing b₁ a₁ = σ.missing b a
  server : ∃ ys, Takes σ b b₁ ys ∧ ys ++ σ.missing a₁ b₁ = σ.missing a b

theorem Moved.takes {m n : Nat} (h : Moved σ a b a₁ b₁) (ha : Takes σ a₁ a₂ ((σ.missing b₁ a₁).take m))
    (hb : Takes σ b₁ b₂ ((σ.missing a₁ b₁).take n)) : Moved σ a b a₂ b₂ := by
  obtain ⟨xs, hxs, hleft⟩ := h.client
  obtain ⟨ys, hys, hright⟩ := h.server
  obtain ⟨hclient, hserver, hsync⟩ := h.syncable.takes ha hb
  refine ⟨hsync, ⟨_, hxs.trans ha, ?_⟩, _, hys.trans hb, ?_⟩
  · rw [hclient, List.append_assoc, List.take_append_drop, hleft]
  · rw [hserver, List.append_assoc, List.take_append_drop, hright]

theorem Holds.takes_nil (h : Holds σ a) : Takes σ a a [] := ⟨by simp, by simp, h⟩

theorem Session.Broken.moved (h : σ.Broken a b a₁ b₁) (hσ : Honest σ) (hab : Syncable σ a b) : Moved σ a b a₁ b₁ := by
  induction h with
  | start => exact ⟨hab, ⟨[], hab.joined.left.takes_nil, rfl⟩, [], hab.joined.right.takes_nil, rfl⟩
  | round _ hround _ ih =>
    have hsize := Nat.le_trans (Nat.le_add_right _ _) ih.syncable.size
    obtain ⟨a', b', hround', ha, hb⟩ := ih.syncable.joined.round hσ hsize
    cases hround.symm.trans hround'
    exact ih.takes ha hb
  | half _ hbegin haccept _ ih =>
    have hsize := Nat.le_trans (Nat.le_add_right _ _) ih.syncable.size
    cases hbegin.symm.trans (ih.syncable.joined.left.beginRound hσ hsize)
    cases haccept.symm.trans (ih.syncable.joined.acceptInventory hσ hsize)
    obtain ⟨a', ha, hdiff⟩ := ih.syncable.joined.acceptDiff hσ
    have hstored := congrArg Prod.fst hdiff
    simp only [Session.serverRound] at hstored ⊢
    rw [hstored]
    exact ih.takes (n := 0) ha ih.syncable.joined.right.takes_nil

/-- Wherever the connections broke, what was moved and what is still missing are what was missing at first,
and the next sync ends with the union of the first stores on both sides, exactly if its frames fit. -/
theorem broken_sync_resumes (hσ : Honest σ) (hab : Syncable σ a b) (h : σ.Broken a b a₁ b₁) :
    Moved σ a b a₁ b₁ ∧ ((∃ a' b' frames, σ.rounds maxSyncRounds a₁ b₁ = .ok (a', b', frames) ∧
      (∀ f ∈ frames, f.Fits) ∧ Union σ a b a' ∧ Union σ b a b') ↔
        ∀ f ∈ σ.schedule maxSyncRounds (σ.missing a₁ b₁) (σ.missing b₁ a₁), f.Fits) := by
  have hmoved := h.moved hσ hab
  have ⟨hsync, ⟨xs, hxs, hleft⟩, ys, hys, hright⟩ := hmoved
  have hsize := hsync.size
  have hlength : (σ.missing a₁ b₁).length ≤ (σ.view a₁).length := List.length_filter_le _ _
  obtain ⟨a', b', hrounds, ha, hb⟩ := hsync.rounds hσ 63
    (by simp only [maxSyncEventsPerBatch, maxInventoryEventIds] at *; omega)
    (by simp only [maxSyncEventsPerBatch, maxInventoryEventIds] at *; omega)
  refine ⟨hmoved, ?_, fun hfits => ⟨a', b', _, hrounds, hfits, hab.joined.union (hleft ▸ hxs.trans ha),
    hab.joined.symm.union (hright ▸ hys.trans hb)⟩⟩
  rintro ⟨_, _, _, hends, hfits, -⟩
  cases hends.symm.trans hrounds
  exact hfits

/-- A store with one event. -/
theorem Syncable.single {e : AuthorizedEvent} (h : Syncable σ ∅ a)
    (hperm : (σ.missing a ∅).Perm [⟨e.event.eventId, e⟩]) : σ.view a = [⟨e.event.eventId, e⟩] ∧
      ∀ {id x}, a.event σ.membership.conversationId id = some x → id = e.event.eventId ∧ x = e.event := by
  have hnone (y : StoredAuthorizedEvent) : EventStore.event ∅ σ.membership.conversationId y.id = none := by
    simp [EventStore.event, EventStore.directory, Directory.empty]
  have hview : σ.view a = [⟨e.event.eventId, e⟩] := by
    simpa only [Session.missing, hnone, decide_true, List.filter_true, List.perm_singleton] using hperm
  refine ⟨hview, fun {id x} hx => ?_⟩
  obtain ⟨y, hy⟩ := Option.ne_none_iff_exists'.mp (h.joined.right.readable id (by simp [hx]))
  have hmem : (⟨id, y⟩ : StoredAuthorizedEvent) ∈ σ.view a := (mem_view h.joined.right.authorized).mpr hy
  rw [hview, List.mem_singleton, StoredAuthorizedEvent.mk.injEq] at hmem
  obtain ⟨rfl, rfl⟩ := hmem
  exact ⟨rfl, Option.some.inj (hx.symm.trans (h.joined.right.authorized.authorization hy).1)⟩

/-- Two stores with one event each. -/
theorem syncable_of_events (e e' : AuthorizedEvent) (he : e.verifyForMembership σ.membership = .ok ())
    (he' : e'.verifyForMembership σ.membership = .ok ()) (hd : Distinct e.event e'.event) :
    ∃ a b, Syncable σ a b ∧ σ.missing a b = [⟨e.event.eventId, e⟩] ∧ σ.missing b a = [⟨e'.event.eventId, e'⟩] := by
  have hone (e : AuthorizedEvent) : [e].length ≤ maxInventoryEventIds := Nat.le_of_ble_eq_true rfl
  obtain ⟨a, -, ha, hperm⟩ := syncable_of_batch (σ := σ) (hone e) (by simpa using he) (List.pairwise_singleton _ _)
  obtain ⟨b, -, hb, hperm'⟩ := syncable_of_batch (σ := σ) (hone e') (by simpa using he') (List.pairwise_singleton _ _)
  obtain ⟨hview, hevent⟩ := ha.single hperm
  obtain ⟨hview', hevent'⟩ := hb.single hperm'
  have hb' : b.event σ.membership.conversationId e.event.eventId = none :=
    Option.eq_none_iff_forall_ne_some.mpr fun x hx => hd.1 (hevent' hx).1
  have ha' : a.event σ.membership.conversationId e'.event.eventId = none :=
    Option.eq_none_iff_forall_ne_some.mpr fun x hx => hd.1 (hevent hx).1.symm
  have hmissing : σ.missing b a = [⟨e'.event.eventId, e'⟩] := by simp [Session.missing, hview', ha']
  refine ⟨a, b, ⟨⟨ha.joined.right, hb.joined.right, fun hx hy => ?_, fun hx hy hpos => ?_⟩, ?_⟩, ?_,
    hmissing⟩
  · exact absurd ((hevent hx).1.symm.trans (hevent' hy).1) hd.1
  · exact absurd ((hevent hx).2 ▸ (hevent' hy).2 ▸ hpos) hd.2
  · rw [hview, hmissing]
    exact Nat.le_of_ble_eq_true rfl
  · simp [Session.missing, hview, hb']

end Kilogram.Sync

namespace Kilogram.Sync
open Store Session
local instance resumptionAuthority : Authority := .plain

def sampleSession : Session := ⟨1, sampleMembership, 0, 0, 0⟩

/-- Client and server have one event each, and the connection breaks when the client has stored the event of
the server: the event of the client is still to be moved. The frames of the next sync fit. -/
theorem broken_sync_resumes_sample : ∃ a b a₁, sampleSession.Broken a b a₁ b ∧
    (sampleSession.missing b a ≠ [] ∧ sampleSession.missing b a₁ = []) ∧ sampleSession.missing a₁ b ≠ [] ∧
    Moved sampleSession a b a₁ b ∧ ∃ a' b' frames, sampleSession.rounds maxSyncRounds a₁ b = .ok (a', b', frames) ∧
      (∀ f ∈ frames, f.Fits) ∧ Union sampleSession a b a' ∧ Union sampleSession b a b' := by
  have hσ : Honest sampleSession := ⟨fun _ _ => rfl, rfl, rfl⟩
  obtain ⟨a, b, hsync, hserver, hclient⟩ := syncable_of_events (σ := sampleSession) (sampleEvent 7)
    (otherEvent 9) (by decide +kernel) (by decide +kernel) ⟨by decide +kernel, by decide +kernel⟩
  have hsize := Nat.le_trans (Nat.le_add_right _ _) hsync.size
  have hbroken := Session.Broken.half .start (hsync.joined.left.beginRound hσ hsize)
    (hsync.joined.acceptInventory hσ hsize) (by rw [Session.serverRound, hserver, hclient]; decide +kernel)
  obtain ⟨a₁, ha, hdiff⟩ := hsync.joined.acceptDiff hσ
  rw [Session.serverRound, congrArg Prod.fst hdiff] at hbroken
  obtain ⟨hleft, hright, -⟩ := hsync.takes (n := 0) ha hsync.joined.right.takes_nil
  rw [hclient] at hleft
  rw [hserver] at hright
  obtain ⟨hmoved, hresumes⟩ := broken_sync_resumes hσ hsync hbroken
  refine ⟨a, b, a₁, hbroken, ⟨by simp [hclient], hleft⟩, by simp [hright], hmoved, hresumes.mpr ?_⟩
  rw [hleft, hright]
  simp only [Frames.Fits]
  decide +kernel

end Kilogram.Sync
