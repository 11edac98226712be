import Kilogram.Ratchet.Counters

/-!
# Events between two guards

An event either continues the chain of its lane or starts a new one.
-/

namespace Kilogram.Ordered2
open Kilogram
open Except (bind_of_ok meets_bind failIf_of_not meets_of_eq_ok meets_failIf meets_okOr meets_pure)

/-- An event on its way, with the lane of its sender as the event left it. -/
structure Sent where
  event : EventMeta
  id : Id
  lane : Lane

/-- The fields of an event that its place in the lane decides. -/
structure Header (r : UInt8) (l : Lane) (e : EventMeta) : Prop where
  role : e.role = r
  n : e.n = l.next
  previous : e.previous = l.last
  sequence : ∀ q, l.sequence = some q → q < e.sequence
  index : e.index = e.expected.index
  kind : e.kind = if e.n = 0 then r + 1 else 3
  native : e.nativeKind = if e.kind = 1 then 0 else 1

/-- The counters of an event have successors. -/
structure Fits (e : EventMeta) : Prop where
  n : e.n.toNat + 1 < 2 ^ 64
  sequence : e.sequence.toNat + 1 < 2 ^ 64
  index : e.index.toNat + 1 < 2 ^ 64

/-- The event continues the chain of the lane. -/
structure Continues (role : UInt8) (l : Lane) (m : Sent) : Prop where
  header : Header role l m.event
  fits : Fits m.event
  started : l.next ≠ 0
  key : l.key = some m.event.key
  g : m.event.expected.g = l.g
  index : m.event.expected.index.toNat = l.index.toNat + 1
  parent : m.event.expected.parent = l.parent
  tail : m.event.expected.tail = none
  lane : ∃ next, next.toNat = m.event.n.toNat + 1 ∧ m.lane = l.record m.event m.id next

/-- What the first event of a chain announces: the generation, and the tail it closes. -/
def Opening (l : Lane) (parent : Option Id) (e : Expected) : Prop := (l.next = 0 ∧ e = ⟨0, 0, parent, none⟩) ∨
    (l.next ≠ 0 ∧ ∃ g t, g.toNat = l.g.toNat + 1 ∧ l.tail = .ok t ∧ e = ⟨g, 0, parent, some t⟩)

/-- The event starts a new chain, in answer to `parent`. -/
structure Starts (role : UInt8) (l : Lane) (parent : Option Id) (m : Sent) : Prop where
  header : Header role l m.event
  fits : Fits m.event
  key : l.key ≠ some m.event.key
  opening : Opening l parent m.event.expected
  turn : m.event.expected.g.toNat * 2 + role.toNat < 2 ^ 64
  lane : ∃ next, next.toNat = m.event.n.toNat + 1 ∧ m.lane = l.record m.event m.id next

variable {E : Error → Prop} {role : UInt8} {l : Lane} {m : Sent}

namespace Continues

theorem ok (h : Continues role l m) (hl : l.Ok role) : m.lane.Ok role := by
  obtain ⟨next, hnext, hlane⟩ := h.lane
  have hcounters := hl.counters h.started
  have hindex := h.index
  rw [← h.header.index] at hindex
  rw [hlane]
  apply hl.record
  · rw [hnext, h.header.n]
  · rw [h.g]
    omega
  · omega
  · rw [h.g]
    exact hl.turn h.started
  · exact h.fits.index

theorem lane_eq (h : Continues role l m) :
    m.lane.next ≠ 0 ∧ m.lane.g = l.g ∧ m.lane.key = l.key ∧ m.lane.first = l.first := by
  obtain ⟨next, hnext, hlane⟩ := h.lane
  rw [hlane]
  refine ⟨?_, h.g, h.key.symm, ?_⟩
  · rintro (rfl : next = 0)
    simp at hnext
  · exact if_neg (not_not.mpr h.key)

end Continues

namespace Starts
variable {parent : Option Id}

theorem g_le (h : Starts role l parent m) (hl : l.Ok role) :
    m.event.expected.g.toNat ≤ l.next.toNat ∧ m.event.index = 0 := by
  rw [h.header.index]
  rcases h.opening with ⟨_, he⟩ | ⟨hne, g, t, hg, _, he⟩
  · rw [he]
    simp
  · rw [he]
    exact ⟨by have := (hl.counters hne).1; dsimp only; omega, rfl⟩

theorem ok (h : Starts role l parent m) (hl : l.Ok role) : m.lane.Ok role := by
  obtain ⟨next, hnext, hlane⟩ := h.lane
  obtain ⟨hg, hi⟩ := h.g_le hl
  rw [hlane]
  apply hl.record
  · rw [hnext, h.header.n]
  · exact hg
  · rw [hi]
    exact Nat.zero_le _
  · exact h.turn
  · exact h.fits.index

theorem lane_eq (h : Starts role l parent m) :
    m.lane.next ≠ 0 ∧ m.lane.g = m.event.expected.g ∧ m.lane.key = some m.event.key ∧ m.lane.first = some m.id := by
  obtain ⟨next, hnext, hlane⟩ := h.lane
  rw [hlane]
  refine ⟨?_, rfl, rfl, if_pos h.key⟩
  rintro (rfl : next = 0)
  simp at hnext

end Starts

namespace Guard2
variable {s : Guard2} {e : EventMeta} {root native : UInt64}

theorem preflight_meets (receive : Bool) (seen : Option SeenObservation) {T : Prop} (hs : s.Ok)
    (hroot : E (.counterExhausted .rootGeneration) ∨ root.toNat + 1 < 2 ^ 64)
    (hnative : E (.counterExhausted .nativeGeneration) ∨ native.toNat + 1 < 2 ^ 64)
    (hheader : Header (if receive then 1 - s.role else s.role) (if receive then s.peer else s.own) e)
    (hn : E (.counterExhausted .ordinal) ∨ e.n.toNat + 1 < 2 ^ 64)
    (hsequence : E (.counterExhausted .author) ∨ e.sequence.toNat + 1 < 2 ^ 64)
    (hindex : E (.counterExhausted .symmetric) ∨ e.index.toNat + 1 < 2 ^ 64)
    (hexpected : (s.expectedFor receive e.key).Meets E fun x => e.expected = x)
    (hseen : s.checkSeenFor receive e seen = .ok ())
    (hturn : (s.postTurn receive e).Meets E fun _ => T) :
    (s.preflight e receive seen root native).Meets E fun st =>
      (st.before = s ∧ st.event = e ∧ st.receive = receive) ∧ st.next.toNat = e.n.toNat + 1 ∧ Fits e ∧ T := by
  unfold preflight
  apply meets_bind (meets_of_eq_ok (P := fun _ => True) hs.validate trivial)
  intro _ _
  apply meets_bind (checkGenerations_meets hroot hnative)
  intro _ _
  apply meets_bind (successor_meets hn)
  intro next hnext
  apply meets_bind (successor_meets hsequence)
  intro after hafter
  apply meets_bind (successor_meets hindex)
  intro post hpost
  apply meets_bind (P := fun _ => True)
  · apply meets_failIf _ trivial
    have hsmaller : ((if receive then s.peer else s.own).sequence.any fun q => decide (e.sequence ≤ q)) = false := by
      rw [Option.any_eq_false]
      intro q hq
      simpa using hheader.sequence q hq
    have hnative : decide (e.kind = 1) = decide (e.nativeKind = 0) ∧ ¬ e.nativeKind > 1 := by
      rw [hheader.native]
      by_cases hk : e.kind = 1
      · simp [hk]
      · simp [hk]
    simp only [not_or, not_not]
    exact ⟨hheader.role, hheader.n, hheader.previous, by simp [hsmaller], hheader.index,
      hheader.kind, hnative.1, hnative.2⟩
  intro _ _
  apply meets_bind hexpected
  intro x hx
  apply meets_bind (P := fun _ => True) (meets_failIf (not_not.mpr hx) trivial)
  intro _ _
  apply meets_bind (meets_of_eq_ok (P := fun _ => True) hseen trivial)
  intro _ _
  apply meets_bind hturn
  intro turn hT
  refine meets_pure ⟨⟨rfl, rfl, rfl⟩, hnext, ?_, hT⟩
  have h1 := next.toNat_lt
  have h2 := after.toNat_lt
  have h3 := post.toNat_lt
  exact ⟨by omega, by omega, by omega⟩

theorem apply_eq_ok (step : PreparedStep) (id : Id) (seen : SeenObservation) (hbefore : step.before = s)
    (hevent : (if step.receive then step.event else { step.event with key := e.key }) = e)
    (hkey : step.receive = false → s.own.next ≠ 0 → s.rotateDue = false → s.own.key = some e.key)
    (hseen : checkSeen (if step.receive then s.peer else s.own) e.key e.expected.g seen = .ok ())
    (htrial : (s.trial step e id).Ok) :
    s.apply step e id seen = .ok (s.trial step e id) := by
  unfold apply
  dsimp only
  rw [bind_of_ok (failIf_of_not _ _), bind_of_ok (failIf_of_not _ _), bind_of_ok hseen, bind_of_ok htrial.validate]
  · rfl
  · rintro ⟨hreceive, hne, hdue, hbad⟩
    exact hbad (hkey hreceive hne hdue)
  · rintro (hbad | hbad)
    · exact hbad hbefore.symm
    · exact hbad hevent

theorem expectedSend_continue (hs : s.Ok) (hne : s.own.next ≠ 0) (hdue : s.rotateDue = false)
    (hE : E (.counterExhausted .symmetric)) :
    s.expectedSend.Meets E fun x => x.g = s.own.g ∧ x.index.toNat = s.own.index.toNat + 1 ∧
      x.parent = s.own.parent ∧ x.tail = none := by
  unfold expectedSend
  apply meets_bind (meets_of_eq_ok (P := fun _ => True) hs.validate trivial)
  intro _ _
  rw [if_neg hne, hdue]
  apply meets_bind (continuationIndex_meets (.inl hE))
  intro x hx
  exact ⟨rfl, hx, rfl, rfl⟩

/-- A side that has to start a chain, and may: it is due to rotate, or it opens the dialog. -/
def MayStart (s : Guard2) : Prop := s.rotateDue = true ∨ s.role = 0 ∧ s.own.next = 0

theorem expectedSend_start (hs : s.Ok) (hstart : s.MayStart) (hE : E (.counterExhausted .laneGeneration)) :
    s.expectedSend.Meets E (Opening s.own s.peer.first) := by
  unfold expectedSend
  apply meets_bind (meets_of_eq_ok (P := fun _ => True) hs.validate trivial)
  intro _ _
  by_cases hne : s.own.next = 0
  · rw [if_pos hne, genesis]
    by_cases hrole : s.role = 0
    · -- the side that opens the dialog has not received anything
      have hpeer : s.peer.next = 0 := by
        by_contra hp
        have := (hs.inbound hp hne).1
        rw [hrole] at this
        cases this
      rw [if_pos hrole, hs.peer.first.mpr hpeer]
      exact .inl ⟨hne, rfl⟩
    · rw [if_neg hrole]
      have hdue : s.rotateDue = true := hstart.resolve_right fun h => hrole h.1
      have hpeer := (hs.due.mp hdue).1
      apply meets_bind (P := fun f => s.peer.first = some f)
      · exact meets_okOr (fun f hf => hf) fun hnone => absurd (hs.peer.first.mp hnone) hpeer
      · intro f hf
        exact .inl ⟨hne, by rw [hf]⟩
  · have hdue : s.rotateDue = true := hstart.resolve_right fun h => hne h.2
    rw [if_neg hne, if_pos hdue]
    apply meets_bind (successor_meets (.inl hE))
    intro g hg
    obtain ⟨t, ht⟩ := hs.own.exists_tail hne
    apply meets_bind (meets_of_eq_ok (P := fun x => x = t) ht rfl)
    rintro _ rfl
    exact .inr ⟨hne, g, _, hg, ht, by rw [hs.cause]⟩

theorem currentTurn_own (hs : s.Ok) (hne : s.own.next ≠ 0) (hdue : s.rotateDue = false) :
    s.currentTurn.Meets E fun t => t.toNat = s.own.g.toNat * 2 + s.role.toNat := by
  rw [currentTurn, hdue]
  simp only [Bool.false_eq_true, if_false, if_neg hne]
  exact turn_meets hs.role (.inr (hs.own.turn hne))

theorem currentTurn_peer (hs : s.Ok) (hdue : s.rotateDue = true) :
    s.currentTurn.Meets E fun t => t.toNat = s.peer.g.toNat * 2 + (1 - s.role).toNat := by
  rw [currentTurn, if_pos hdue]
  exact turn_meets (one_sub_le hs.role) (.inr (hs.peer.turn (hs.due.mp hdue).1))

theorem postTurn_continue (hs : s.Ok) (hne : s.own.next ≠ 0) (hdue : s.rotateDue = false) :
    (s.postTurn false e).Meets E fun _ => True := by
  unfold postTurn
  apply meets_bind (currentTurn_own hs hne hdue)
  intro _ _
  rw [if_neg (by simp), if_neg (by simp [hdue, hne])]
  exact trivial

theorem postTurn_start (hs : s.Ok) (hstart : s.MayStart)
    (hopening : Opening s.own s.peer.first e.expected) (hE : E (.counterExhausted .turn)) :
    (s.postTurn false e).Meets E fun _ => e.expected.g.toNat * 2 + s.role.toNat < 2 ^ 64 := by
  unfold postTurn
  rcases hdue : s.rotateDue with _ | _
  · obtain ⟨hrole, hne⟩ := hstart.resolve_left (by simp [hdue])
    have hg : e.expected.g = 0 := by
      rcases hopening with ⟨_, h⟩ | ⟨h, _⟩
      · rw [h]
      · exact absurd hne h
    apply meets_bind (P := fun _ => True)
    · rw [currentTurn, hdue]
      simp only [Bool.false_eq_true, if_false, if_pos hne]
      exact trivial
    · intro _ _
      rw [if_neg (by simp), if_neg (by simp [hrole])]
      change _ < _
      rw [hg, hrole]
      decide
  · apply meets_bind (currentTurn_peer hs hdue)
    intro pre hpre
    rw [if_neg (by simp), if_pos (.inl rfl)]
    apply dhStep_meets hs.role (.inl hE)
    have hpeer := (hs.due.mp hdue).1
    rcases hopening with ⟨hne, h⟩ | ⟨hne, g, t, hg, _, h⟩
    · obtain ⟨hrole, hz, _⟩ := hs.inbound hpeer hne
      rw [h, hrole, hpre, hz]
      rfl
    · have := hs.behind hpeer hne hdue
      rw [h]
      dsimp only
      omega

theorem expectedReceive_continue (hm : Continues (1 - s.role) s.peer m) :
    (s.expectedReceive m.event.key).Meets E fun x => m.event.expected = x := by
  unfold expectedReceive
  rw [if_neg hm.started, if_pos hm.key]
  have hindex := hm.fits.index
  rw [hm.header.index, hm.index] at hindex
  apply meets_bind (continuationIndex_meets (.inr hindex))
  rintro ⟨j, post⟩ hj
  have hj : m.event.expected.index = j := UInt64.toNat_inj.mp (hm.index.trans hj.symm)
  apply meets_pure
  rw [← hm.g, ← hj, ← hm.parent, ← hm.tail]

theorem expectedReceive_start (hs : s.Ok) (hm : Starts (1 - s.role) s.peer s.own.first m)
    (hdue : s.rotateDue = false) (hown : s.role = 0 → s.own.next ≠ 0)
    (hunused : s.own.next ≠ 0 → s.usedOwnFirst ≠ s.own.first)
    (hpeer : s.peer.next ≠ 0 → s.own.next ≠ 0) :
    (s.expectedReceive m.event.key).Meets E fun x => m.event.expected = x := by
  unfold expectedReceive
  rcases hm.opening with ⟨hz, he⟩ | ⟨hne, g, t, hg, ht, he⟩
  · rw [if_pos hz, genesis, he]
    rcases Two.eq_zero_or_one hs.role with hrole | hrole
    · rw [if_neg (by rw [hrole]; decide)]
      apply meets_bind (P := fun f => s.own.first = some f)
      · exact meets_okOr (fun f hf => hf) fun hnone => absurd (hs.own.first.mp hnone) (hown hrole)
      · intro f hf
        rw [hf]
        exact rfl
    · -- nothing was sent yet by the side that answers
      have hz' : s.own.next = 0 := by
        by_contra h
        have := (hs.outbound hz h).1
        rw [hrole] at this
        cases this
      rw [if_pos (by rw [hrole]; decide), hs.own.first.mpr hz']
      exact rfl
  · have hown' := hpeer hne
    rw [if_neg hne, if_neg hm.key]
    apply meets_bind (P := fun _ => True) (meets_failIf (by simp [hdue]) trivial)
    intro _ _
    apply meets_bind (P := fun f => s.own.first = some f)
    · exact meets_okOr (fun f hf => hf) fun hnone => absurd (hs.own.first.mp hnone) hown'
    intro f hf
    apply meets_bind (P := fun _ => True)
      (meets_failIf (fun h => hunused hown' (h.trans hf.symm)) trivial)
    intro _ _
    apply meets_bind (successor_meets (.inr (by rw [← hg]; exact g.toNat_lt)))
    intro g' hg'
    apply meets_bind (meets_of_eq_ok (P := fun x => x = t) ht rfl)
    rintro _ rfl
    apply meets_pure
    rw [he, hf, UInt64.toNat_inj.mp (hg.trans hg'.symm)]

theorem postTurn_receive_continue (hs : s.Ok) (hm : Continues (1 - s.role) s.peer m) :
    (s.postTurn true m.event).Meets E fun _ => True := by
  unfold postTurn
  apply meets_bind (P := fun _ => True)
  · rcases hdue : s.rotateDue with _ | _
    · by_cases hne : s.own.next = 0
      · rw [currentTurn, hdue]
        simp only [Bool.false_eq_true, if_false, if_pos hne]
        exact trivial
      · exact (currentTurn_own hs hne hdue).mono (fun _ h => h) fun _ _ => trivial
    · exact (currentTurn_peer hs hdue).mono (fun _ h => h) fun _ _ => trivial
  · intro _ _
    rw [if_pos rfl, if_pos hm.key]
    exact trivial

theorem postTurn_receive_start (hs : s.Ok) (hm : Starts (1 - s.role) s.peer s.own.first m)
    (hdue : s.rotateDue = false) (hturn : s.own.next ≠ 0 →
      s.own.g.toNat * 2 + s.role.toNat + 1 = m.event.expected.g.toNat * 2 + (1 - s.role).toNat)
    (hfirst : s.own.next = 0 → s.role = 1 ∧ s.peer.next = 0) :
    (s.postTurn true m.event).Meets E fun _ => True := by
  unfold postTurn
  by_cases hne : s.own.next = 0
  · obtain ⟨hrole, hpeer⟩ := hfirst hne
    apply meets_bind (P := fun t => t = 0)
    · rw [currentTurn, hdue]
      simp only [Bool.false_eq_true, if_false, if_pos hne]
      exact rfl
    rintro _ rfl
    rw [if_pos rfl, if_neg hm.key, if_pos ⟨by rw [hrole]; decide, by rw [hm.header.n, hpeer]⟩]
    apply meets_bind (P := fun _ => True) (meets_failIf (by simp [hne]) trivial)
    exact fun _ _ => trivial
  · apply meets_bind (currentTurn_own hs hne hdue)
    intro pre hpre
    have hnext : ¬ (1 - s.role = 0 ∧ m.event.n = 0) := by
      rintro ⟨hrole, hn⟩
      have hz : s.peer.next = 0 := hm.header.n.symm.trans hn
      have := (hs.outbound hz hne).1
      rw [this] at hrole
      cases hrole
    rw [if_pos rfl, if_neg hm.key, if_neg hnext]
    apply (dhStep_meets (one_sub_le hs.role) (.inr hm.turn) _).mono (fun _ h => h) fun _ _ => trivial
    have := hturn hne
    omega

end Guard2
end Kilogram.Ordered2
