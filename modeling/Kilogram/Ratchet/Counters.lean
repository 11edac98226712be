import Kilogram.Ratchet.Guard
import Kilogram.Lib.Outcome

/-!
# When a guard accepts

The checks of a guard, one lemma for each: what they need to pass, and that they can otherwise only
fail on an exhausted counter.
-/

namespace Kilogram.Ordered2
open Kilogram
open Except (meets_bind meets_of_eq_ok meets_failIf meets_okOr)

/-- A counter has no successor left. -/
def Exhausted (e : Error) : Prop := ∃ kind, e = .counterExhausted kind

variable {E : Error → Prop}

theorem successor_meets {n : UInt64} {kind : Counter} (h : E (.counterExhausted kind) ∨ n.toNat + 1 < 2 ^ 64) :
    (successor n kind).Meets E fun m => m.toNat = n.toNat + 1 := by
  apply meets_okOr
  · intro m hm
    exact checkedAdd_eq_some.mp hm
  · intro hnone
    rcases h with h | h
    · exact h
    · simp only [checkedAdd] at hnone
      rw [if_pos (by exact h)] at hnone
      simp at hnone

theorem turn_meets {role : UInt8} {g : UInt64} (hrole : role ≤ 1)
    (h : E (.counterExhausted .turn) ∨ g.toNat * 2 + role.toNat < 2 ^ 64) :
    (turn role g).Meets E fun t => t.toNat = g.toNat * 2 + role.toNat := by
  apply meets_bind (P := fun _ => True)
  · exact meets_failIf (UInt8.not_lt.mpr hrole) trivial
  intro _ _
  apply meets_okOr
  · intro t ht
    obtain ⟨hlt, ht⟩ := Option.ite_none_right_eq_some.mp ht
    cases ht
    exact UInt64.toNat_ofNat_of_lt' hlt
  · intro hnone
    rcases h with h | h
    · exact h
    · rw [if_pos h] at hnone
      simp at hnone

theorem dhStep_meets {pre : UInt64} {role : UInt8} {g : UInt64} (hrole : role ≤ 1)
    (hfits : E (.counterExhausted .turn) ∨ g.toNat * 2 + role.toNat < 2 ^ 64)
    (h : pre.toNat + 1 = g.toNat * 2 + role.toNat) :
    (dhStep pre role g).Meets E fun _ => g.toNat * 2 + role.toNat < 2 ^ 64 := by
  apply meets_bind (turn_meets hrole hfits)
  intro t ht
  apply meets_bind (successor_meets (n := pre) (hfits.imp_right fun hlt => h ▸ hlt))
  intro next hnext
  apply meets_bind (P := fun _ => True)
  · apply meets_failIf _ trivial
    rw [not_not]
    apply UInt64.toNat_inj.mp
    omega
  · intro _ _
    exact ht ▸ t.toNat_lt

theorem continuationIndex_meets {last : UInt64} (h : E (.counterExhausted .symmetric) ∨ last.toNat + 2 < 2 ^ 64) :
    (continuationIndex last).Meets E fun r => r.1.toNat = last.toNat + 1 := by
  apply meets_bind (successor_meets (n := last) (h.imp_right fun _ => by omega))
  intro j hj
  apply meets_bind (successor_meets (n := j) (h.imp_right fun _ => by omega))
  exact fun _ _ => hj

theorem checkGenerations_meets {root native : UInt64}
    (hroot : E (.counterExhausted .rootGeneration) ∨ root.toNat + 1 < 2 ^ 64)
    (hnative : E (.counterExhausted .nativeGeneration) ∨ native.toNat + 1 < 2 ^ 64) :
    (checkGenerations root native).Meets E fun _ => True := by
  apply meets_bind (successor_meets hroot)
  intro _ _
  apply meets_bind (successor_meets hnative)
  exact fun _ _ => trivial

/-- A lane as events leave it. -/
structure Lane.Ok (role : UInt8) (l : Lane) : Prop where
  last : l.last = none ↔ l.next = 0
  key : l.key = none ↔ l.next = 0
  first : l.first = none ↔ l.next = 0
  sequence : l.sequence = none ↔ l.next = 0
  blank : l.next = 0 → l.g = 0 ∧ l.index = 0 ∧ l.parent = none
  turn : l.next ≠ 0 → l.g.toNat * 2 + role.toNat < 2 ^ 64
  index : l.next ≠ 0 → l.index.toNat + 1 < 2 ^ 64
  counters : l.next ≠ 0 → l.g.toNat < l.next.toNat ∧ l.index.toNat < l.next.toNat

namespace Lane
variable {role : UInt8} {l : Lane}

theorem ok_empty (role : UInt8) : Lane.empty.Ok role := by
  constructor <;> simp [empty]

private theorem isNone_eq {α : Type} {o : Option α} {p : Prop} [Decidable p] (h : o = none ↔ p) :
    ¬ (decide p ≠ o.isNone) := by
  rw [not_not]
  cases o with
  | none => simp [h.mp rfl]
  | some a => simp [show ¬ p from fun hp => by simpa using h.mpr hp]

theorem Ok.validate (h : l.Ok role) (hrole : role ≤ 1) : l.validate role = .ok () := by
  have hmeets : (l.validate role).Meets (fun _ => False) fun _ => True := by
    apply meets_bind (P := fun _ => True)
    · apply meets_failIf _ trivial
      simp only [not_or]
      refine ⟨isNone_eq h.last, isNone_eq h.key, isNone_eq h.first, isNone_eq h.sequence, ?_⟩
      rintro ⟨hz, hbad⟩
      obtain ⟨hg, hi, hp⟩ := h.blank hz
      rcases hbad with hbad | hbad | hbad
      · exact hbad hg
      · exact hbad hi
      · exact hbad hp
    intro _ _
    split
    · exact trivial
    · next hne =>
      apply meets_bind (turn_meets hrole (.inr (h.turn hne)))
      intro _ _
      apply meets_bind (successor_meets (.inr (h.index hne)))
      intro _ _
      apply meets_failIf _ trivial
      obtain ⟨hg, hi⟩ := h.counters hne
      simp only [not_or, ge_iff_le, UInt64.not_le]
      exact ⟨hg, hi⟩
  obtain ⟨_, hok, _⟩ := hmeets.exists_ok
  exact hok

theorem Ok.exists_tail (h : l.Ok role) (hne : l.next ≠ 0) : ∃ t, l.tail = .ok t := by
  obtain ⟨k, hk⟩ := Option.ne_none_iff_exists'.mp fun hnone => hne (h.key.mp hnone)
  obtain ⟨i, hi⟩ := Option.ne_none_iff_exists'.mp fun hnone => hne (h.last.mp hnone)
  exact ⟨⟨l.g, k, l.index, i⟩, by simp [tail, hk, hi]; rfl⟩

theorem Ok.record (h : l.Ok role) {e : EventMeta} {id : Id} {next : UInt64}
    (hnext : next.toNat = l.next.toNat + 1) (hg : e.expected.g.toNat ≤ l.next.toNat)
    (hi : e.index.toNat ≤ l.next.toNat) (hturn : e.expected.g.toNat * 2 + role.toNat < 2 ^ 64)
    (hindex : e.index.toNat + 1 < 2 ^ 64) : (l.record e id next).Ok role := by
  have hne : next ≠ 0 := by
    rintro rfl
    simp at hnext
  have hfirst : (if l.key ≠ some e.key then some id else l.first) ≠ none := by
    split
    · simp
    · next hk =>
      rw [not_not] at hk
      intro hnone
      have hz := h.first.mp hnone
      rw [h.key.mpr hz] at hk
      simp at hk
  refine ⟨?_, ?_, ?_, ?_, fun hz => absurd hz hne, fun _ => hturn, fun _ => hindex, fun _ => ?_⟩
  · simp [Lane.record, hne]
  · simp [Lane.record, hne]
  · exact iff_of_false hfirst hne
  · simp [Lane.record, hne]
  · change e.expected.g.toNat < next.toNat ∧ e.index.toNat < next.toNat
    omega

end Lane

/-- A guard that passes its own validation. -/
structure Guard2.Ok (s : Guard2) : Prop where
  version : s.version = 2
  role : s.role ≤ 1
  own : s.own.Ok s.role
  peer : s.peer.Ok (1 - s.role)
  due : s.rotateDue = true ↔ s.peer.next ≠ 0 ∧ s.usedOwnFirst = s.own.first
  cause : s.receivedNewFirst = s.peer.first
  inbound : s.peer.next ≠ 0 → s.own.next = 0 →
    s.role = 1 ∧ s.peer.g.toNat * 2 + (1 - s.role).toNat = 0 ∧ s.rotateDue = true
  behind : s.peer.next ≠ 0 → s.own.next ≠ 0 → s.rotateDue = true →
    s.own.g.toNat * 2 + s.role.toNat + 1 = s.peer.g.toNat * 2 + (1 - s.role).toNat
  ahead : s.peer.next ≠ 0 → s.own.next ≠ 0 → s.rotateDue = false →
    s.peer.g.toNat * 2 + (1 - s.role).toNat + 1 = s.own.g.toNat * 2 + s.role.toNat
  outbound : s.peer.next = 0 → s.own.next ≠ 0 → s.role = 0 ∧ s.own.g = 0

theorem one_sub_le {role : UInt8} (h : role ≤ 1) : 1 - role ≤ 1 := by
  rcases Two.eq_zero_or_one h with rfl | rfl <;> decide

namespace Guard2
variable {s : Guard2}

theorem Ok.checkTurns (h : s.Ok) : s.checkTurns.Meets (fun _ => False) fun _ => True := by
  have hrole := one_sub_le h.role
  unfold Guard2.checkTurns
  split
  · next hpeer =>
    apply meets_bind (turn_meets hrole (.inr (h.peer.turn hpeer)))
    intro peerTurn hpeerTurn
    split
    · next hown =>
      obtain ⟨hr, hz, hdue⟩ := h.inbound hpeer hown
      apply meets_failIf _ trivial
      have hturn : peerTurn = 0 := UInt64.toNat_inj.mp (hpeerTurn.trans hz)
      simp [hr, hturn, hdue]
    · next hown =>
      apply meets_bind (turn_meets h.role (.inr (h.own.turn hown)))
      intro ownTurn hownTurn
      apply meets_failIf _ trivial
      rcases hdue : s.rotateDue with _ | _
      · have := h.ahead hpeer hown hdue
        simp only [Bool.false_eq_true, if_false, not_not]
        apply checkedAdd_eq_some.mpr
        change _ = _ + 1
        omega
      · have := h.behind hpeer hown hdue
        simp only [if_true, not_not]
        apply checkedAdd_eq_some.mpr
        change _ = _ + 1
        omega
  · next hpeer =>
    rw [not_not] at hpeer
    apply meets_failIf _ trivial
    rintro ⟨hown, hbad⟩
    obtain ⟨hr, hg⟩ := h.outbound hpeer hown
    rcases hbad with hbad | hbad
    · exact hbad hr
    · exact hbad hg

theorem Ok.validate (h : s.Ok) : s.validate = .ok () := by
  have hpeer : s.peer.first.isSome = true ↔ s.peer.next ≠ 0 := by
    rw [Option.isSome_iff_ne_none, ne_eq, h.peer.first]
  have hmeets : s.validate.Meets (fun _ => False) fun _ => True := by
    apply meets_bind (P := fun _ => True)
    · apply meets_failIf _ trivial
      simp only [not_or, not_not, UInt8.not_lt]
      exact ⟨h.version, h.role⟩
    intro _ _
    apply meets_bind (meets_of_eq_ok (P := fun _ => True) (h.own.validate h.role) trivial)
    intro _ _
    apply meets_bind (meets_of_eq_ok (P := fun _ => True)
      (h.peer.validate (one_sub_le h.role)) trivial)
    intro _ _
    apply meets_bind (P := fun _ => True)
    · apply meets_failIf _ trivial
      simp only [not_or, not_not]
      refine ⟨?_, h.cause.symm⟩
      rw [Bool.eq_iff_iff, h.due, Bool.and_eq_true, hpeer, decide_eq_true_eq]
    intro _ _
    apply meets_bind h.checkTurns
    intro _ _
    apply meets_failIf _ trivial
    rw [h.cause]
    rintro (⟨hdue, hbad⟩ | ⟨_, hbad⟩)
    · obtain ⟨hne, hused⟩ := h.due.mp hdue
      rcases hbad with hbad | hbad | hbad
      · exact hbad rfl
      · exact hne (h.peer.first.mp hbad)
      · exact hbad hused
    · exact hbad rfl
  obtain ⟨_, hok, _⟩ := hmeets.exists_ok
  exact hok

end Guard2
end Kilogram.Ordered2
