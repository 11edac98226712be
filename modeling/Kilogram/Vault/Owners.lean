import Kilogram.Vault.CommitSteps
import Kilogram.Vault.CreditFrame

/-!
# Owners of records

Outside the shared trees a record belongs to the context of the tree it is stored in.
-/

namespace Kilogram
open Credits

/-- The records of a context's own trees belong to that context. -/
def Root.Owned (r : Root) : Prop :=
  ∀ (k : Key) (x : Record), k.context ≤ 1 → k.ns.global = false → r.records[k.place]? = some x → x.owner = k.context

/-- The records of one owner are the same in two roots. -/
def Root.SameOwned (d : UInt8) (r s : Root) : Prop :=
  ∀ (p : Place) (x : Record), x.owner = d → (s.records[p]? = some x ↔ r.records[p]? = some x)

namespace Root.SameOwned
variable {d : UInt8} {r s t : Root}

theorem refl (d : UInt8) (r : Root) : r.SameOwned d r := fun _ _ _ => Iff.rfl

theorem trans (h : r.SameOwned d s) (h' : s.SameOwned d t) : r.SameOwned d t :=
  fun p x hx => (h' p x hx).trans (h p x hx)

end Root.SameOwned

namespace Work
variable {w w' : Work} {k : Key}

theorem owned_stored (h : w.root.Owned) (value : Bytes) (reserved : Nat) :
    (w.stored k value reserved).root.Owned := by
  intro j x hj hns hx
  rw [get_stored] at hx
  split at hx
  · next heq =>
    rw [Key.eq_of_place_eq hj hns heq.symm]
    cases hx
    rfl
  · exact h j x hj hns hx

theorem owned_removed (h : w.root.Owned) (y : Record) : (w.removed k y).root.Owned := by
  intro j x hj hns hx
  rw [get_removed] at hx
  split at hx
  · simp at hx
  · exact h j x hj hns hx

theorem Puts.owned {value : Bytes} {reserved : Nat} {internal : Bool} (h : w.root.Owned)
    (hputs : w.Puts k value reserved internal w') : w'.root.Owned := by
  cases hputs with
  | same => exact h
  | fresh | replaced => exact owned_stored h value reserved

theorem Puts.sameOwned {value : Bytes} {reserved : Nat} {internal : Bool} {d : UInt8}
    (h : w.root.Owned) (hc : k.context ≤ 1) (hd : k.context ≠ d)
    (hputs : w.Puts k value reserved internal w') : w.root.SameOwned d w'.root := by
  have hstored (hold : ∀ x, w.root.records[k.place]? = some x → x.owner = k.context) :
      w.root.SameOwned d (w.stored k value reserved).root := by
    intro p x hx
    rw [get_stored]
    split
    · next hp =>
      subst hp
      constructor
      · intro heq
        cases heq
        exact absurd hx hd
      · intro heq
        exact absurd ((hold x heq).symm.trans hx) hd
    · exact Iff.rfl
  cases hputs with
  | same => exact .refl d _
  | fresh hx _ => exact hstored fun x hx' => absurd (hx.symm.trans hx') (by simp)
  | replaced x hx howner _ _ =>
    refine hstored fun y hy => ?_
    cases hx.symm.trans hy
    rcases hglobal : k.ns.global with _ | _
    · exact h k x hc hglobal hx
    · exact howner hglobal

end Work

namespace Credits
variable {w w' : Work}

theorem apply_owned {a : CreditAction} (h : w.root.Owned) (ha : apply w a = .ok w') : w'.root.Owned := by
  refine apply_induction (I := (·.root.Owned)) ha h fun u v hmove hu => ?_
  cases hmove with
  | ledger => exact hu
  | stored => exact Work.owned_stored hu _ _
  | removed => exact Work.owned_removed hu _
  | spent => exact hu

/-- A tree of tickets holds records of its context only. -/
theorem owner_of_ticketTree {r : Root} (h : r.Owned) {c : UInt8} (hc : c ≤ 1) {p : Place} {x : Record}
    (hp : ticketTree c p.tree) (hx : r.records[p]? = some x) : x.owner = c := by
  obtain ⟨ns, hns, htree⟩ := hp
  have hlocal : ns.global = false ∧ ns.offset = ns.code := by
    fin_cases hns <;> exact ⟨rfl, rfl⟩
  have hplace : (⟨c, ns, p.bytes⟩ : Key).place = p := by
    rw [Key.place, Key.tree_of_local hlocal.1, hlocal.2, ← htree]
  exact h ⟨c, ns, p.bytes⟩ x hc hlocal.1 (hplace ▸ hx)

/-- A credit action leaves the records of the other context alone. -/
theorem apply_sameOwned {a : CreditAction} {d : UInt8} (h : w.root.Owned) (hd : a.context ≠ d)
    (ha : apply w a = .ok w') : w.root.SameOwned d w'.root := by
  obtain ⟨hc, hkeeps⟩ := apply_keeps ha
  intro p x hx
  by_cases hp : ticketTree a.context p.tree
  · constructor
    · intro hget
      exact absurd ((owner_of_ticketTree (apply_owned h ha) hc hp hget).symm.trans hx) hd
    · intro hget
      exact absurd ((owner_of_ticketTree h hc hp hget).symm.trans hx) hd
  · rw [hkeeps.records p hp]

end Credits

namespace Vault
open History

theorem owned_of_reachable [Primitives] {r : Root} (h : Reachable r) : r.Owned := by
  apply invariant_of_reachable _ _ h
  · intro claim incarnation quota r hcreate k x _ _ hx
    simp only [create, Except.ok_iff] at hcreate
    obtain ⟨_, _, _, _, _, _, _, _, rfl⟩ := hcreate
    simp at hx
  · intro r q s puts credits mid w hr happ
    have hmid : mid.root.Owned := putAll_invariant
      (fun u u' entry _ hput hu => (Work.puts_of_put hput).2.2.owned hu) happ.put hr
    have hw : w.root.Owned := credits_invariant (fun u u' a _ ha hu => apply_owned hu ha) happ.credit hmid
    rw [happ.root]
    exact hw

end Vault
end Kilogram
