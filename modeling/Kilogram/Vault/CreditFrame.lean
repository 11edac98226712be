import Kilogram.Vault.CreditSteps

/-!
# What credit transitions leave alone

A credit action is made of moves that write to four trees of its own context and to that context's
ledger.
-/

namespace Kilogram

/-- The root may have changed in the trees of `S` and in the ledger of `c`, nowhere else. -/
structure Work.Keeps (S : Nat → Prop) (c : UInt8) (w w' : Work) : Prop where
  root : w'.root = { w.root with records := w'.root.records, ledger := w'.root.ledger }
  records : ∀ p : Place, ¬ S p.tree → w'.root.records[p]? = w.root.records[p]?
  ledger : ∀ d, d ≤ 1 → d ≠ c → w'.root.ledger.get d = w.root.ledger.get d

namespace Work.Keeps
variable {S T : Nat → Prop} {c : UInt8} {w w' w'' : Work}

theorem of_root_eq (h : w'.root = w.root) : w.Keeps S c w' := by
  refine ⟨?_, ?_, ?_⟩
  · rw [h]
  · intro p _
    rw [h]
  · intro d _ _
    rw [h]

theorem trans (h : w.Keeps S c w') (h' : w'.Keeps S c w'') : w.Keeps S c w'' := by
  refine ⟨?_, ?_, ?_⟩
  · rw [h'.root, h.root]
  · intro p hp
    rw [h'.records p hp, h.records p hp]
  · intro d hd hne
    rw [h'.ledger d hd hne, h.ledger d hd hne]

theorem stored {k : Key} (hk : S k.tree) (value : Bytes) (reserved : Nat) :
    w.Keeps S c (w.stored k value reserved) := by
  refine ⟨rfl, ?_, fun _ _ _ => rfl⟩
  intro p hp
  apply Maps.get_insert_of_ne
  rintro rfl
  exact hp hk

theorem removed {k : Key} (hk : S k.tree) (x : Record) : w.Keeps S c (w.removed k x) := by
  refine ⟨rfl, ?_, fun _ _ _ => rfl⟩
  intro p hp
  apply Maps.get_erase_of_ne
  rintro rfl
  exact hp hk

theorem of_puts {k : Key} {value : Bytes} {reserved : Nat} {internal : Bool} (hk : S k.tree)
    (h : w.Puts k value reserved internal w') : w.Keeps S c w' := by
  cases h with
  | same => exact of_root_eq rfl
  | fresh | replaced => exact stored hk value reserved

theorem setLedger (hc : c ≤ 1) (l : Ledger) : w.Keeps S c (Credits.setLedger w c l) := by
  refine ⟨rfl, fun _ _ => rfl, ?_⟩
  intro d hd hne
  exact Two.get_set_of_ne _ _ hc hd hne

end Work.Keeps

namespace Credits
open Relation

/-- The trees of a context that hold tickets and admission records. -/
def ticketTree (c : UInt8) (s : Nat) : Prop :=
  ∃ ns ∈ [Namespace.queue, .pending, .undelivered, .admission], s = c.toNat * 24 + ns.code

variable {w w' : Work} {c : UInt8}

/-- What the actions of a context are made of: writes to its tickets and admissions, to its ledger and
to the evidence that it has spent. -/
inductive Move (c : UInt8) (w : Work) : Work → Prop
  | ledger (l : Ledger) : Move c w (setLedger w c l)
  | stored {k : Key} (hk : k.context = c)
      (hns : k.ns ∈ [Namespace.queue, .pending, .undelivered, .admission]) (value : Bytes)
      (reserved : Nat) : Move c w (w.stored k value reserved)
  | removed {k : Key} (hk : k.context = c) (hns : k.ns ∈ [Namespace.queue, .pending, .undelivered])
      (x : Record) : Move c w (w.removed k x)
  | spent {spent : Finset Key}
      (hknown : ∀ k ∈ spent, k ∉ w.spent → ∃ x, w.root.records[k.place]? = some x)
      (helse : ∀ d, d ≠ c → unspent w.newCharge spent d = unspent w.newCharge w.spent d) :
      Move c w { w with spent, settled := w.settled.set c true }

theorem moves_of_puts {k : Key} {value : Bytes} {reserved : Nat} {internal : Bool} (hk : k.context = c)
    (hns : k.ns ∈ [Namespace.queue, .pending, .undelivered, .admission])
    (h : w.Puts k value reserved internal w') : ReflTransGen (Move c) w w' := by
  cases h with
  | same => exact .refl
  | fresh | replaced => exact .single (.stored hk hns value reserved)

theorem move_of_cost {event : Id} {records : List Key} {receipt : Bool} {n : Nat}
    (h : cost w c event records receipt = .ok (n, w')) : Move c w w' := by
  obtain ⟨_, hknown, rfl, _, helse, _⟩ := cost_eq_ok h
  refine .spent (fun k hk hnot => ?_) helse
  rw [Finset.mem_union, List.mem_toFinset] at hk
  exact (hknown k (hk.resolve_left hnot)).2.2

theorem apply_moves {a : CreditAction} (h : apply w a = .ok w') :
    a.context ≤ 1 ∧ ReflTransGen (Move a.context) w w' := by
  cases a with
  | queue c sequence id body =>
    obtain ⟨hc, _, _, ⟨rfl, _⟩ | ⟨_, rfl⟩⟩ := queue_cases h
    · exact ⟨hc, .refl⟩
    · exact ⟨hc, .single (.stored (k := queueKey c sequence) rfl (.head _) _ _)⟩
  | grant c id start stop =>
    obtain ⟨hc, rfl | ⟨g, _, _, _, _, _, _, rfl⟩⟩ := grant_cases h
    · exact ⟨hc, .refl⟩
    · exact ⟨hc, .single (.ledger _)⟩
  | cancelGrant c id =>
    obtain ⟨hc, g, _, rfl⟩ := cancelGrant_cases h
    exact ⟨hc, .single (.ledger _)⟩
  | refill c bytes =>
    obtain ⟨hc, rfl⟩ := refill_cases h
    exact ⟨hc, .single (.ledger _)⟩
  | pending c ordinal event body head grant =>
    obtain ⟨hc, _, _, ⟨rfl, _⟩ | ⟨l, l', reserved, _, _, _, _, rfl⟩⟩ := pending_cases h
    · exact ⟨hc, .refl⟩
    · exact ⟨hc, .head (.ledger l') (.single (.stored (k := pendingKey c ordinal) rfl (.tail _ (.head _))
        _ _))⟩
  | materialize c queue request ordinal event records =>
    obtain ⟨hc, x, t, p, xp, n, w₁, reserved, _, _, _, _, _, _, _, hcost, _, _, _, rfl⟩ := materialize_cases h
    exact ⟨hc, .head (move_of_cost hcost) (.head
      (.stored (k := undeliveredKey c ordinal) rfl (.tail _ (.tail _ (.head _))) _ _)
      (.single (.removed (k := queueKey c queue) rfl (.head _) x)))⟩
  | readable c ordinal event records =>
    obtain ⟨hc, x, t, xe, w₁, records', n, w₂, l, l', _, _, _, _, _, _, hadmit, hcost, _, _, _,
      rfl⟩ := readable_cases h
    have hadmitted : ReflTransGen (Move c) w w₁ := by
      rcases admit_eq_ok hadmit with ⟨_, rfl, _⟩ | ⟨pair, _, hputs, _⟩
      · exact .refl
      · exact moves_of_puts rfl (by simp) hputs
    exact ⟨hc, hadmitted.trans (.head (move_of_cost hcost) (.head (.ledger l')
      (.single (.removed (k := pendingKey c ordinal) rfl (.tail _ (.head _)) x))))⟩
  | acknowledge c ordinal event records =>
    obtain ⟨hc, x, t, n, w₁, _, _, _, _, hcost, _, rfl⟩ := acknowledge_cases h
    exact ⟨hc, .head (move_of_cost hcost) (.single
      (.removed (k := undeliveredKey c ordinal) rfl (.tail _ (.tail _ (.head _))) x))⟩
  | capturePending c ordinal event original admission =>
    obtain ⟨hc, x, t, _, _, _, _, ⟨rfl, _⟩ | ⟨_, hcap⟩⟩ := capturePending_cases h
    · exact ⟨hc, .refl⟩
    · obtain ⟨paid, reserved, spent, rfl, _, _, _, helse, hputs⟩ := hcap.step
      refine ⟨hc, .head (.spent (fun k hk hnot => ?_) helse) (moves_of_puts rfl (.tail _ (.head _)) hputs)⟩
      simp only [Finset.mem_insert] at hk
      rcases hk with rfl | rfl | hk
      · exact hcap.auth admission (by simp)
      · exact hcap.auth original (by simp)
      · exact absurd hk hnot

/-- What every move keeps, every action keeps. -/
theorem apply_induction {a : CreditAction} {I : Work → Prop} (ha : apply w a = .ok w') (h : I w)
    (hmove : ∀ u v, Move a.context u v → I u → I v) : I w' := by
  have hmoves := (apply_moves ha).2
  clear ha
  induction hmoves with
  | refl => exact h
  | tail _ hlast ih => exact hmove _ _ hlast ih

theorem ticketTree_of_mem {k : Key} (hk : k.context = c)
    (hns : k.ns ∈ [Namespace.queue, .pending, .undelivered, .admission]) : ticketTree c k.tree := by
  obtain ⟨_, ns, _⟩ := k
  obtain rfl : _ = c := hk
  refine ⟨ns, hns, ?_⟩
  fin_cases hns <;> rfl

theorem Move.keeps (hc : c ≤ 1) (h : Move c w w') : w.Keeps (ticketTree c) c w' := by
  cases h with
  | ledger l => exact .setLedger hc l
  | stored hk hns => exact .stored (ticketTree_of_mem hk hns) _ _
  | removed hk hns => exact .removed (ticketTree_of_mem hk (List.mem_of_mem_take (i := 3) hns)) _
  | spent => exact .of_root_eq rfl

/-- Every action stays within the ticket trees and the ledger of its context. -/
theorem apply_keeps {a : CreditAction} (h : apply w a = .ok w') :
    a.context ≤ 1 ∧ w.Keeps (ticketTree a.context) a.context w' := by
  have hc := (apply_moves h).1
  exact ⟨hc, apply_induction (I := w.Keeps _ _) h (.of_root_eq rfl)
    fun _ _ hmove hkeeps => hkeeps.trans (hmove.keeps hc)⟩

end Credits
end Kilogram
