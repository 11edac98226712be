import Kilogram.Ratchet.Dialog

/-!
# A lane and its two ends

The sender and the receiver of a lane hold the same lane at different times: between them are the events
in flight.
-/

namespace Kilogram.Ordered2
open Kilogram

def lastLane (l : Lane) (ms : List Sent) : Lane := ms.foldl (fun _ m => m.lane) l

theorem lastLane_append (l : Lane) (ms ns : List Sent) :
    lastLane l (ms ++ ns) = lastLane (lastLane l ms) ns := List.foldl_append

/-- Every event continues the chain of the lane. -/
inductive Quiet (role : UInt8) : Lane → List Sent → Prop
  | nil (l : Lane) : Quiet role l []
  | cons {l : Lane} {m : Sent} {ms : List Sent} (hm : Continues role l m)
      (hms : Quiet role m.lane ms) : Quiet role l (m :: ms)

/-- One event starts a chain, in answer to `parent` and with a fresh key; the others continue. -/
inductive Pending (role : UInt8) (parent : Option Id) (fresh : Id → Prop) : Lane → List Sent → Prop
  | here {l : Lane} {m : Sent} {ms : List Sent} (hm : Starts role l parent m)
      (hkey : fresh m.event.key) (hms : Quiet role m.lane ms) : Pending role parent fresh l (m :: ms)
  | later {l : Lane} {m : Sent} {ms : List Sent} (hm : Continues role l m)
      (hms : Pending role parent fresh m.lane ms) : Pending role parent fresh l (m :: ms)

variable {role x : UInt8} {parent : Option Id} {fresh : Id → Prop} {l : Lane} {m : Sent}
  {ms : List Sent}

theorem Quiet.same (h : Quiet role l ms) : (lastLane l ms).g = l.g ∧ (lastLane l ms).first = l.first ∧
      ((lastLane l ms).next = 0 ↔ l.next = 0) := by
  induction h with
  | nil l => exact ⟨rfl, rfl, Iff.rfl⟩
  | cons hm _ ih =>
    obtain ⟨hne, hg, _, hfirst⟩ := hm.lane_eq
    obtain ⟨ihg, ihfirst, ihnext⟩ := ih
    exact ⟨ihg.trans hg, ihfirst.trans hfirst, ihnext.trans (iff_of_false hne hm.started)⟩

theorem Quiet.append (h : Quiet role l ms) (hm : Continues role (lastLane l ms) m) : Quiet role l (ms ++ [m]) := by
  induction h with
  | nil l => exact .cons hm (.nil _)
  | cons hfirst _ ih => exact .cons hfirst (ih hm)

theorem Quiet.start (h : Quiet role l ms) (hm : Starts role (lastLane l ms) parent m)
    (hkey : fresh m.event.key) : Pending role parent fresh l (ms ++ [m]) := by
  induction h with
  | nil l => exact .here hm hkey (.nil _)
  | cons hfirst _ ih => exact .later hfirst (ih hm)

theorem Pending.append (h : Pending role parent fresh l ms)
    (hm : Continues role (lastLane l ms) m) : Pending role parent fresh l (ms ++ [m]) := by
  induction h with
  | here hfirst hkey hms => exact .here hfirst hkey (hms.append hm)
  | later hfirst _ ih => exact .later hfirst (ih hm)

theorem Pending.mono {fresh' : Id → Prop} (h : Pending role parent fresh l ms)
    (hfresh : ∀ k, fresh k → fresh' k) : Pending role parent fresh' l ms := by
  induction h with
  | here hfirst hkey hms => exact .here hfirst (hfresh _ hkey) hms
  | later hfirst _ ih => exact .later hfirst ih

structure Link (x : UInt8) (X Y : Side) : Prop where
  upto : Y.received ≤ X.sent.length
  own : X.guard.own = lastLane .empty X.sent
  peer : Y.guard.peer = lastLane .empty (X.sent.take Y.received)
  used : ∀ m ∈ X.sent, ∃ f, X.seen x m.event.key = some ⟨m.event.expected.g, f⟩
  only : ∀ k, X.seen x k ≠ none → ∃ m ∈ X.sent, m.event.key = k
  ownSeen : ∀ k f, X.guard.own.key = some k → X.guard.own.first = some f → X.seen x k = some ⟨X.guard.own.g, f⟩
  peerSeen : ∀ k f, Y.guard.peer.key = some k → Y.guard.peer.first = some f → Y.seen x k = some ⟨Y.guard.peer.g, f⟩
  known : ∀ k, X.seen x k = none → Y.seen x k = none
  first : ∀ f, X.guard.own.first = some f → ∃ m ∈ X.sent, m.id = f

def inFlight (X Y : Side) : List Sent := X.sent.drop Y.received

variable {X Y X' Y' : Side}

theorem Link.lastLane_inFlight (h : Link x X Y) : lastLane Y.guard.peer (inFlight X Y) = X.guard.own := by
  rw [h.peer, ← lastLane_append, inFlight, List.take_append_drop, ← h.own]

/-- What a side notes of one event of a lane. -/
structure Noted (x : UInt8) (seen seen' : UInt8 → Id → Option Seen) (m : Sent) : Prop where
  kept : ∀ k v, seen x k = some v → seen' x k = some v
  event : ∃ f, seen' x m.event.key = some ⟨m.event.expected.g, f⟩ ∧ m.lane.first = some f
  only : ∀ k, seen' x k ≠ none → seen x k ≠ none ∨ k = m.event.key
  g : m.lane.g = m.event.expected.g
  key : m.lane.key = some m.event.key

variable {seen : UInt8 → Id → Option Seen}

theorem Noted.lane {seen' : UInt8 → Id → Option Seen} (h : Noted x seen seen' m) {k f : Id}
    (hk : m.lane.key = some k) (hf : m.lane.first = some f) : seen' x k = some ⟨m.lane.g, f⟩ := by
  obtain ⟨f', hseen, hf'⟩ := h.event
  cases h.key.symm.trans hk
  cases hf'.symm.trans hf
  rw [hseen, h.g]

theorem Link.send (h : Link x X Y) (hsent : X'.sent = X.sent ++ [m]) (hown : X'.guard.own = m.lane)
    (hnoted : Noted x X.seen X'.seen m)
    (hfirst : m.lane.first = X.guard.own.first ∨ m.lane.first = some m.id) : Link x X' Y := by
  have hmem : ∀ n ∈ X.sent, n ∈ X'.sent := fun n hn => hsent ▸ List.mem_append_left _ hn
  have hlast : m ∈ X'.sent := hsent ▸ List.mem_append_right _ (List.mem_singleton_self m)
  refine ⟨?_, ?_, ?_, ?_, ?_, ?_, h.peerSeen, ?_, ?_⟩
  · rw [hsent, List.length_append]
    have := h.upto
    omega
  · rw [hsent, lastLane_append, hown]
    rfl
  · rw [hsent, List.take_append_of_le_length h.upto, ← h.peer]
  · intro n hn
    rw [hsent, List.mem_append, List.mem_singleton] at hn
    rcases hn with hn | rfl
    · obtain ⟨f, hf⟩ := h.used n hn
      exact ⟨f, hnoted.kept _ _ hf⟩
    · obtain ⟨f, hf, _⟩ := hnoted.event
      exact ⟨f, hf⟩
  · intro k hk
    rcases hnoted.only k hk with hk | rfl
    · obtain ⟨n, hn, hkey⟩ := h.only k hk
      exact ⟨n, hmem n hn, hkey⟩
    · exact ⟨m, hlast, rfl⟩
  · intro k f hk hf
    rw [hown] at hk hf ⊢
    exact hnoted.lane hk hf
  · intro k hk
    apply h.known
    by_contra hne
    obtain ⟨v, hv⟩ := Option.ne_none_iff_exists'.mp hne
    cases (hnoted.kept k v hv).symm.trans hk
  · intro f hf
    rw [hown] at hf
    rcases hfirst with heq | heq
    · obtain ⟨n, hn, hid⟩ := h.first f (heq.symm.trans hf)
      exact ⟨n, hmem n hn, hid⟩
    · exact ⟨m, hlast, Option.some.inj (heq.symm.trans hf)⟩

theorem Link.receive (h : Link x X Y) (hm : X.sent[Y.received]? = some m)
    (hreceived : Y'.received = Y.received + 1) (hpeer : Y'.guard.peer = m.lane)
    (hnoted : Noted x Y.seen Y'.seen m) : Link x X Y' := by
  obtain ⟨hlt, hget⟩ := List.getElem?_eq_some_iff.mp hm
  refine ⟨by omega, h.own, ?_, h.used, h.only, h.ownSeen, ?_, ?_, h.first⟩
  · rw [hreceived, List.take_add_one, hm, lastLane_append, hpeer]
    rfl
  · intro k f hk hf
    rw [hpeer] at hk hf ⊢
    exact hnoted.lane hk hf
  · intro k hk
    by_contra hne
    rcases hnoted.only k hne with hne | rfl
    · exact hne (h.known k hk)
    · obtain ⟨f, hf⟩ := h.used m (hget ▸ List.getElem_mem hlt)
      cases hf.symm.trans hk

theorem Link.congr_receiver (h : Link x X Y) (hreceived : Y'.received = Y.received)
    (hpeer : Y'.guard.peer = Y.guard.peer) (hseen : ∀ k, Y'.seen x k = Y.seen x k) :
    Link x X Y' := by
  refine ⟨hreceived ▸ h.upto, h.own, ?_, h.used, h.only, h.ownSeen, ?_, ?_, h.first⟩
  · rw [hpeer, hreceived, h.peer]
  · intro k f hk hf
    rw [hpeer] at hk hf ⊢
    rw [hseen]
    exact h.peerSeen k f hk hf
  · intro k hk
    rw [hseen]
    exact h.known k hk

theorem Link.congr_sender (h : Link x X Y) (hsent : X'.sent = X.sent)
    (hown : X'.guard.own = X.guard.own) (hseen : ∀ k, X'.seen x k = X.seen x k) : Link x X' Y := by
  refine ⟨hsent ▸ h.upto, ?_, ?_, ?_, ?_, ?_, h.peerSeen, ?_, ?_⟩
  · rw [hown, hsent, h.own]
  · rw [hsent, h.peer]
  · intro n hn
    rw [hseen]
    exact h.used n (hsent ▸ hn)
  · intro k hk
    rw [hseen] at hk
    rw [hsent]
    exact h.only k hk
  · intro k f hk hf
    rw [hown] at hk hf ⊢
    rw [hseen]
    exact h.ownSeen k f hk hf
  · intro k hk
    rw [hseen] at hk
    exact h.known k hk
  · intro f hf
    rw [hown] at hf
    rw [hsent]
    exact h.first f hf

theorem inFlight_cons (hm : X.sent[Y.received]? = some m) : inFlight X Y = m :: X.sent.drop (Y.received + 1) := by
  obtain ⟨hlt, hget⟩ := List.getElem?_eq_some_iff.mp hm
  rw [inFlight, List.drop_eq_getElem_cons hlt, hget]

theorem inFlight_send (h : Link x X Y) (hsent : X'.sent = X.sent ++ [m]) : inFlight X' Y = inFlight X Y ++ [m] := by
  rw [inFlight, hsent, List.drop_append_of_le_length h.upto, inFlight]

theorem note_of_some {key : Id} {v w : Seen} (h : seen x key = some v) : note seen x key w = seen := by
  funext r k
  rw [note, if_neg]
  rintro ⟨rfl, rfl, hnone⟩
  cases h.symm.trans hnone

theorem note_of_role_ne {r : UInt8} {key : Id} {w : Seen} (h : r ≠ x)
    (k : Id) : note seen x key w r k = seen r k := if_neg fun hc => h hc.1

theorem noted_continue {f : Id} {w : Seen} (hm : Continues role l m) (hfirst : l.first = some f)
    (hseen : seen x m.event.key = some ⟨l.g, f⟩) : Noted x seen (note seen x m.event.key w) m := by
  obtain ⟨_, hg, hkey, hf⟩ := hm.lane_eq
  rw [note_of_some hseen]
  exact ⟨fun _ _ h => h, ⟨f, by rw [hseen, hm.g], hf.trans hfirst⟩, fun _ h => Or.inl h,
    hg.trans hm.g.symm, hkey.trans hm.key⟩

theorem noted_start (hm : Starts role l parent m) (hseen : seen x m.event.key = none) :
    Noted x seen (note seen x m.event.key ⟨m.event.expected.g, m.id⟩) m := by
  obtain ⟨_, hg, hkey, hf⟩ := hm.lane_eq
  refine ⟨?_, ⟨m.id, if_pos ⟨rfl, rfl, hseen⟩, hf⟩, ?_, hg, hkey⟩
  · intro k v hv
    rw [note, if_neg, hv]
    rintro ⟨_, rfl, hnone⟩
    cases hv.symm.trans hnone
  · intro k hk
    by_cases hkey : k = m.event.key
    · exact Or.inr hkey
    · left
      rwa [note, if_neg fun hc => hkey hc.2.1] at hk

end Kilogram.Ordered2
