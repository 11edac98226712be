import Kilogram.Lib.Except
import Mathlib.Data.List.Chain
import Mathlib.Data.List.Sort

/-!
# Checked chains

A list whose neighbours pass a check, as a loader verifies it: sorted by a number that each element
carries, and then link by link.
-/

namespace Chain
variable {α ε : Type}

def forPairs (check : α → α → Except ε Unit) : List α → Except ε Unit
  | [] => .ok ()
  | [_] => .ok ()
  | a :: b :: l => do
    check a b
    forPairs check (b :: l)

theorem forPairs_eq_ok {check : α → α → Except ε Unit} {l : List α} :
    forPairs check l = .ok () ↔ l.IsChain fun a b => check a b = .ok () := by
  fun_induction forPairs check l with
  | case1 => simp
  | case2 => simp
  | case3 a b l ih =>
    rw [Except.bind_eq_ok, List.isChain_cons_cons, ← ih]
    exact ⟨fun ⟨_, hcheck, hrest⟩ => ⟨hcheck, hrest⟩, fun ⟨hcheck, hrest⟩ => ⟨(), hcheck, hrest⟩⟩

theorem pairwise_of_isChain {R S : α → α → Prop} (hRS : ∀ a b, R a b → S a b)
    (htrans : ∀ a b c, S a b → S b c → S a c) {l : List α} (h : l.IsChain R) : l.Pairwise S := by
  have : Trans S S S := ⟨fun hab hbc => htrans _ _ _ hab hbc⟩
  exact List.isChain_iff_pairwise.mp (h.imp fun a b hab => hRS a b hab)

section Sorting
variable {κ : Type} [LinearOrder κ] {key : α → κ} {l l' : List α}

theorem pairwise_insertionSort (key : α → κ) (l : List α) :
    (l.insertionSort fun a b => key a ≤ key b).Pairwise fun a b => key a ≤ key b := by
  have : IsTrans α fun a b => key a ≤ key b := ⟨fun _ _ _ => le_trans⟩
  have : Std.Total fun a b : α => key a ≤ key b := ⟨fun a b => le_total _ _⟩
  exact List.pairwise_insertionSort _ l

theorem insertionSort_congr (hperm : l'.Perm l) (hkeys : (l.map key).Nodup) :
    l'.insertionSort (fun a b => key a ≤ key b) = l.insertionSort fun a b => key a ≤ key b := by
  have hsame := (List.perm_insertionSort (fun a b => key a ≤ key b) l').trans hperm
  refine (hsame.trans (List.perm_insertionSort _ l).symm).eq_of_pairwise (fun a b ha hb hab hba => ?_)
    (pairwise_insertionSort key l') (pairwise_insertionSort key l)
  exact List.inj_on_of_nodup_map hkeys (hsame.mem_iff.mp ha) ((List.perm_insertionSort _ l).mem_iff.mp hb)
    (le_antisymm hab hba)

theorem insertionSort_eq (h : l.Pairwise fun a b => key a < key b) (hperm : l'.Perm l) :
    l'.insertionSort (fun a b => key a ≤ key b) = l := by
  rw [insertionSort_congr hperm (List.pairwise_map.mpr (h.imp fun hlt => hlt.ne))]
  exact (h.imp fun hlt => hlt.le).insertionSort_eq

end Sorting
end Chain
