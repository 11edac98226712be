import Kilogram.Index.Insert

/-!
# Deletion

Deleting a key from the stored tree stores the tree without it.
-/

namespace Kilogram.Index.Tree
open Radix
variable [P : Primitives] {K : Set Id} {tr tr' : Tree} {scope : UInt8} {p k : Id} {n : Nat}
  {t : Shape} {s : Summary}

/-- The overlay now holds nothing below the entrance, and nothing else changed. -/
structure Emptied (K : Set Id) (scope : UInt8) (p : Id) (n : Nat) (tr tr' : Tree) (s : Summary) : Prop where
  sound : Sound K tr'
  within : Within K scope (Below p n) tr tr'
  empty : Trie.Empty (memory K tr' scope) p n
  summary : s = Summary.default

/-- The overlay now holds the given tree, or none, below the entrance. -/
def Became (K : Set Id) (scope : UInt8) (p : Id) (n : Nat) (tr tr' : Tree) (s : Summary) : Option Shape → Prop
  | none => Emptied K scope p n tr tr' s
  | some t => Updated K scope p n tr tr' s t

theorem Became.of_reads {tr₁ : Tree} (hr : Reads tr tr₁) {t : Option Shape}
    (h : Became K scope p n tr₁ tr' s t) : Became K scope p n tr tr' s t := by
  cases t with
  | none => exact ⟨h.sound, (hr.within scope _).trans h.within, h.empty, h.summary⟩
  | some t => exact Updated.of_reads hr h

theorem Became.count_eq_zero_iff {t : Option Shape} (h : Became K scope p n tr tr' s t) : s.count = 0 ↔ t = none := by
  cases t with
  | none =>
    rw [h.summary]
    simp [Summary.default]
  | some t =>
    rw [h.summary]
    simp [Shape.summary_count_ne_zero h.fits]

theorem Sound.erase_leaf {u : Payload} (hs : Sound K tr) (hK : CollisionFree tr.crypto K)
    (hkeys : Shape.KeysIn K (.leaf k u)) (hv : (Trie.leaf k u).Valid p n)
    (ht : Holds K tr scope p n (.leaf k u)) (h : tr.change (tr.address scope p n) none = .ok tr') :
    Emptied K scope p n tr tr' Summary.default := by
  obtain ⟨hs', hw, hm⟩ := hs.erase (e := (p, n)) hK (hkeys.entrance hv) h
  refine ⟨hs', hw.mono fun _ he => he ▸ ⟨le_refl n, hv.cut_entrance⟩, fun e he => ?_, rfl⟩
  by_cases hne : e = (p, n)
  · rw [hne, hm]
  · rw [hw.frame scope e fun h => hne h.2]
    exact ht.2 e he hne

theorem Emptied.promote {q : Id} {b : Nat} {l r : Shape} {side : Bool} {tr₁ tr₂ tr₃ : Tree}
    {gone : Summary} {promoted : Node} (hK : CollisionFree tr.crypto K)
    (hkeys : Shape.KeysIn K (.branch q b l r)) (hv : (Trie.branch q b l r).Valid p n)
    (hf : Shape.Fits (.branch q b l r)) (ht : Holds K tr scope p n (.branch q b l r))
    (hu : Emptied K scope (Radix.child q b side).1 (b + 1) tr tr₁ gone)
    (hload : tr₁.load scope (Radix.child q b !side)
      (if side then l.summary tr.crypto scope else r.summary tr.crypto scope) = .ok (promoted, tr₂))
    (herase : tr₂.change (tr₂.address scope (Radix.child q b !side).1 (Radix.child q b !side).2) none
      = .ok tr₃)
    (hstore : tr₃.store scope (p, n) promoted = .ok (s, tr')) :
    Updated K scope p n tr tr' s (if side then l else r) := by
  have hq := hv.2.2.2.1
  have hb : b < 256 := hv.2.1
  have hflip : (if (!side) = true then r else l) = if side = true then l else r := by
    cases side <;> rfl
  have hov := hv.side (!side)
  have hlay := Trie.Lays.side ht (!side)
  rw [hflip] at hov hlay
  have hokeys : Shape.KeysIn K (if side then l else r) := by
    split
    exacts [hkeys.sides.1, hkeys.sides.2]
  have hof : Shape.Fits (if side then l else r) := by
    split
    exacts [hf.sides.1, hf.sides.2]
  have hother : Holds K tr₁ scope (Radix.child q b !side).1 (b + 1) (if side then l else r) := by
    rw [Holds, hu.within.crypto]
    refine hlay.congr hov fun e he => hu.within.frame scope e fun h => ?_
    exact absurd h.2 (by simpa only [Bool.not_not] using not_below_both hb hq he)
  obtain ⟨rfl, hs₂, hreads⟩ := hu.sound.load_top (hu.within.crypto ▸ hK) hokeys hov hother hload
  have hc₂ := hreads.crypto.trans hu.within.crypto
  obtain ⟨hs₃, hw₃, hgone⟩ := hs₂.erase (hc₂ ▸ hK) (hokeys.entrance hov) herase
  have hc₃ := hw₃.crypto.trans hc₂
  rw [hu.within.crypto, ← hc₃] at hstore
  have htop : Known K (p, n) := hkeys.entrance hv
  obtain ⟨hs', hw, hm, rfl⟩ := hs₃.store_node (hc₃ ▸ hK) htop hov hof hstore
  have hself : Below p n (p, n) := ⟨le_refl n, hv.cut_entrance⟩
  have hdown : ∀ side e, Below (Radix.child q b side).1 (b + 1) e → Below p n e := by
    intro side e he
    have hc := (below_child_iff hb hq side e).mp he
    exact Below.trans ⟨hc.1.le, hc.2.1⟩ hv.1 hv.2.2.1
  have hne : Radix.child q b (!side) ≠ (p, n) := by
    intro heq
    exact not_below_top hv.1 (heq ▸ below_child_self hb hq !side)
  have hwithin : Within K scope (Below p n) tr tr' :=
    (((hu.within.mono (hdown side)).trans (hreads.within scope _)).trans
      (hw₃.mono fun _ he => he ▸ hdown _ _ (below_child_self hb hq !side))).trans
      (hw.mono fun _ he => he ▸ hself)
  refine ⟨hs', hwithin, ?_, hof, by rw [hc₃]⟩
  refine Trie.Lays.promote (m := memory K tr scope) (i := memory K tr₁ scope) hv
    (hwithin.crypto ▸ ht) side hu.empty ?_ ?_ ?_ ?_
  · exact fun e he => hu.within.frame scope e fun h => he h.2
  · rw [hm, hw.crypto]
  · rw [hw.frame _ _ fun h => hne h.2]
    exact hgone
  · intro e h1 h2
    rw [hw.frame _ _ (fun h => h1 h.2), hw₃.frame _ _ (fun h => h2 h.2), hreads.memory]

/-- Deleting a key from a stored tree: the key was there, and the tree without it is stored. -/
theorem Sound.delete (fuel : Nat) {tr tr' : Tree} {p : Id} {n : Nat} {t : Shape} {s : Summary}
    (hs : Sound K tr) (hK : CollisionFree tr.crypto K) (hkeys : t.KeysIn K) (hv : t.Valid p n)
    (hf : t.Fits) (ht : Holds K tr scope p n t)
    (h : Tree.delete scope k fuel tr (p, n) (t.summary tr.crypto scope) = .ok (s, tr')) :
    (∃ u, (k, u) ∈ t.leaves) ∧ Became K scope p n tr tr' s (t.erase k) := by
  induction fuel generalizing tr tr' p n t s with
  | zero => exact absurd h (by simp [Tree.delete])
  | succ fuel ih =>
    rw [Tree.delete] at h
    simp only [Except.ok_iff, Prod.exists, not_not] at h
    obtain ⟨top, tr₁, hload, _, hpfx, h⟩ := h
    obtain ⟨rfl, hs₁, hreads⟩ := hs.load_top hK hkeys hv ht hload
    suffices hgoal : (∃ u, (k, u) ∈ t.leaves) ∧ Became K scope p n tr₁ tr' s (t.erase k) from
      ⟨hgoal.1, hgoal.2.of_reads hreads⟩
    have ht₁ := hreads.holds ht
    rw [← hreads.crypto] at hK h
    simp only [Shape.node_pfx, Shape.node_bits] at h hpfx
    clear hload hreads hs ht
    cases t with
    | leaf key u =>
      have hkey : k = key := by
        rwa [Trie.bits, prefixOf, cut_full k 256 (le_refl _)] at hpfx
      subst hkey
      rw [if_pos (show (Trie.leaf k u).bits = 256 from rfl)] at h
      simp only [Except.ok_iff, Prod.mk.injEq] at h
      obtain ⟨tr₂, herase, rfl, rfl⟩ := h
      exact ⟨⟨u, List.mem_singleton.mpr rfl⟩, hs₁.erase_leaf hK hkeys hv ht₁ herase⟩
    | branch q b l r =>
      have hb : b < 256 := hv.2.1
      rw [if_neg (show ¬ (Trie.branch q b l r).bits = 256 from hb.ne)] at h
      simp only [Shape.node_branch, Except.ok_iff, Prod.exists] at h
      obtain ⟨changed, tr₂, hrec, h⟩ := h
      have hside := hv.side (k.getMsbD b)
      have hrec' := ih hs₁ hK (t := if k.getMsbD b then r else l)
        (by split; exacts [hkeys.sides.2, hkeys.sides.1]) hside
        (by split; exacts [hf.sides.2, hf.sides.1]) (ht₁.side _)
        (by rw [apply_ite (Shape.summary tr₁.crypto scope)]; exact hrec)
      obtain ⟨⟨u, hu⟩, hbecame⟩ := hrec'
      refine ⟨⟨u, ?_⟩, ?_⟩
      · rw [Trie.leaves, List.mem_append]
        split at hu
        exacts [Or.inr hu, Or.inl hu]
      have hcount := hbecame.count_eq_zero_iff
      cases herase : (if k.getMsbD b then r else l).erase k with
      | none =>
        rw [herase] at hbecame hcount
        rw [if_pos (hcount.mpr rfl)] at h
        simp only [Except.ok_iff, Prod.exists] at h
        obtain ⟨promoted, tr₃, hload, tr₄, hgone, hstore⟩ := h
        rw [Trie.erase_branch_none herase]
        exact Emptied.promote hK hkeys hv hf ht₁ hbecame hload hgone hstore
      | some x =>
        rw [herase] at hbecame hcount
        rw [if_neg (fun h0 => absurd (hcount.mp h0) (by simp))] at h
        rw [Trie.erase_branch_some herase]
        exact Updated.branch hK hv hf (hkeys.entrance hv) ht₁ (hside.erase herase) hbecame h

end Kilogram.Index.Tree
