import Kilogram.Index.Writes

/-!
# Insertion

Inserting a leaf into the stored tree stores the tree with the leaf set, and touches nothing outside
the region of the entrance it starts from.
-/

namespace Kilogram.Index
open Radix

/-- All keys of the tree are known. -/
def Shape.KeysIn (K : Set Id) (t : Shape) : Prop := ∀ x ∈ t.leaves, x.1 ∈ K

variable {K : Set Id} {p : Id} {n : Nat}

theorem known_of_key {k : Id} (hk : k ∈ K) (hn : n ≤ 256) (hp : cut k n = p) : Known K (p, n) := ⟨hn, k, hk, hp⟩

theorem Shape.KeysIn.sides {q : Id} {b : Nat} {l r : Shape}
    (h : KeysIn K (.branch q b l r)) : KeysIn K l ∧ KeysIn K r :=
  ⟨fun x hx => h x (List.mem_append_left _ hx), fun x hx => h x (List.mem_append_right _ hx)⟩

theorem Shape.KeysIn.known {t : Shape} (h : KeysIn K t) {m : Nat}
    (hv : t.Valid p n) (hm : m ≤ t.bits) : Known K (cut t.pfx m, m) := by
  obtain ⟨x, hx⟩ := List.exists_mem_of_ne_nil _ (Trie.leaves_ne_nil t)
  refine known_of_key (h x hx) (hm.trans hv.bits_le.2) ?_
  rw [← hv.leaf_cut hx, cut_cut, Nat.min_eq_right hm]

theorem Shape.KeysIn.entrance {t : Shape} (h : KeysIn K t) (hv : t.Valid p n) : Known K (p, n) := by
  have := h.known hv hv.bits_le.1
  rwa [hv.cut_pfx] at this

namespace Tree
variable [P : Primitives] {K : Set Id} {tr tr' : Tree} {scope : UInt8} {p k : Id} {n : Nat}
  {t : Shape} {v : Payload} {s : Summary}

/-- The scope holds exactly this tree below the entrance. -/
def Holds (K : Set Id) (tr : Tree) (scope : UInt8) (p : Id) (n : Nat) (t : Shape) : Prop :=
  Trie.Lays (Shape.node tr.crypto scope) (memory K tr scope) p n t

theorem Reads.holds (h : Reads tr tr') (ht : Holds K tr scope p n t) : Holds K tr' scope p n t := by
  rw [Holds, h.memory, h.crypto]
  exact ht

theorem Sound.load_top (hs : Sound K tr) (hK : CollisionFree tr.crypto K) (hk : t.KeysIn K)
    (hv : t.Valid p n) (ht : Holds K tr scope p n t) {expected : Summary} {node : Node}
    (h : tr.load scope (p, n) expected = .ok (node, tr')) :
    node = t.node tr.crypto scope ∧ Sound K tr' ∧ Reads tr tr' := by
  obtain ⟨hs', hreads, hmem, _⟩ := hs.load hK (hk.entrance hv) h
  exact ⟨Option.some.inj (hmem.symm.trans ht.top), hs', hreads⟩

variable {e : Id × Nat} {p : Id} {n : Nat} {tr₁ : Tree}

theorem Sound.store_node (hs : Sound K tr) (hK : CollisionFree tr.crypto K)
    (he : Known K e) (hv : t.Valid p n) (hf : t.Fits)
    (h : tr.store scope e (t.node tr.crypto scope) = .ok (s, tr')) :
    Sound K tr' ∧ Within K scope (· = e) tr tr' ∧
      memory K tr' scope e = some (t.node tr.crypto scope) ∧ s = t.summary tr.crypto scope := by
  obtain ⟨hs', hw, hmem, hsum⟩ := hs.store hK he (Shape.wf_node hv hf) h
  rw [Shape.summary_node hf] at hsum
  exact ⟨hs', hw, hmem, (Except.ok.inj hsum).symm⟩

theorem Sound.store_branch (hs : Sound K tr) (hK : CollisionFree tr.crypto K)
    (he : Known K e) {q : Id} {b : Nat} {l r : Shape} (hv : (Trie.branch q b l r).Valid p n)
    (hl : l.Fits) (hr : r.Fits)
    (h : tr.store scope e (Shape.node tr.crypto scope (.branch q b l r)) = .ok (s, tr')) :
    Sound K tr' ∧ Within K scope (· = e) tr tr' ∧
      memory K tr' scope e = some (Shape.node tr.crypto scope (.branch q b l r)) ∧
      Shape.Fits (.branch q b l r) ∧ s = Shape.summary tr.crypto scope (.branch q b l r) := by
  have hwf : (Shape.node tr.crypto scope (.branch q b l r)).Wf :=
    ⟨hv.2.2.2.1, hv.2.1, Shape.summary_count_ne_zero hl, Shape.summary_count_ne_zero hr⟩
  obtain ⟨hs', hw, hmem, hsum⟩ := hs.store hK he hwf h
  obtain ⟨hfits, hs''⟩ := (Shape.summary_branch_iff hl hr s).mp hsum
  exact ⟨hs', hw, hmem, hfits, hs''⟩

omit P in
theorem join_eq (c : Nat) : Trie.join k v c t = .branch (cut k c) c
    (if k.getMsbD c then t else .leaf k v) (if k.getMsbD c then .leaf k v else t) := by
  unfold Trie.join
  split <;> rfl

/-- The overlay now holds the tree `t'` below the entrance, and nothing else changed. -/
structure Updated (K : Set Id) (scope : UInt8) (p : Id) (n : Nat) (tr tr' : Tree) (s : Summary)
    (t' : Shape) : Prop where
  sound : Sound K tr'
  within : Within K scope (Below p n) tr tr'
  holds : Holds K tr' scope p n t'
  fits : t'.Fits
  summary : s = t'.summary tr.crypto scope

theorem Updated.of_reads (hr : Reads tr tr₁) (h : Updated K scope p n tr₁ tr' s t) : Updated K scope p n tr tr' s t :=
  ⟨h.sound, (hr.within scope _).trans h.within, h.holds, h.fits, by rw [h.summary, hr.crypto]⟩

theorem Sound.split (hs : Sound K tr) (hK : CollisionFree tr.crypto K) (hkeys : t.KeysIn K)
    (hv : t.Valid p n) (hf : t.Fits) (ht : Holds K tr scope p n t) (hk : k ∈ K)
    (hkp : cut k n = p) (hlt : min (agree t.pfx k) t.bits < t.bits)
    (h : tr.split scope (p, n) (t.node tr.crypto scope) (v.node k) (min (agree t.pfx k) t.bits) = .ok (s, tr')) :
    Updated K scope p n tr tr' s (Trie.join k v (min (agree t.pfx k) t.bits) t) := by
  have hbits := hv.bits_le
  have hjv := hv.join v hkp hlt
  have hnc : n ≤ min (agree t.pfx k) t.bits := le_min (le_agree (by omega) (hv.cut_pfx.trans hkp.symm)) hbits.1
  have hbit := Trie.getMsbD_agree_pfx hlt hbits.2
  have hpk : cut t.pfx (min (agree t.pfx k) t.bits) = cut k (min (agree t.pfx k) t.bits) :=
    cut_of_cut_eq (cut_agree t.pfx k) (by omega)
  generalize hc : min (agree t.pfx k) t.bits = c at *
  have hq : cut (cut k c) c = cut k c := by rw [cut_cut, Nat.min_self]
  have hold : Radix.child (cut k c) c (!k.getMsbD c) = (cut t.pfx (c + 1), c + 1) :=
    Prod.ext ((Trie.cut_succ_eq_child (by omega) hq _).mpr ⟨hpk, hbit⟩).symm rfl
  have hnew : Radix.child (cut k c) c (k.getMsbD c) = (cut k (c + 1), c + 1) :=
    Prod.ext ((Trie.cut_succ_eq_child (by omega) hq _).mpr ⟨rfl, rfl⟩).symm rfl
  have hek : ∀ side, Known K (Radix.child (cut k c) c side) := by
    intro side
    rcases Bool.eq_or_eq_not side (k.getMsbD c) with rfl | rfl
    · exact hnew ▸ known_of_key hk (by omega) rfl
    · exact hold ▸ hkeys.known hv hlt
  have hbelow : ∀ side, Below p n (Radix.child (cut k c) c side) := by
    intro side
    have hself := below_child_self (by omega) hq side
    have hup := (below_child_iff (by omega) hq side _).mp hself
    exact Below.trans ⟨hup.1.le, hup.2.1⟩ hnc (by rw [cut_cut, Nat.min_eq_right hnc, hkp])
  -- three stores: the old node one bit below the split, the leaf beside it, the new branch on top
  simp only [Tree.split, Except.ok_iff, Prod.exists] at h
  obtain ⟨a, tr₁, h1, b, tr₂, h2, h3⟩ := h
  change tr.store scope (Radix.child (cut k c) c (!k.getMsbD c)) _ = _ at h1
  change tr₁.store scope (Radix.child (cut k c) c (k.getMsbD c)) _ = _ at h2
  obtain ⟨hs₁, hw₁, hm₁, rfl⟩ := hs.store_node hK (hek _) hv hf h1
  have hlv : (Trie.leaf k v).Valid k 256 := ⟨le_refl _, cut_full k 256 (le_refl _)⟩
  obtain ⟨hs₂, hw₂, hm₂, rfl⟩ := hs₁.store_node (t := .leaf k v) (hw₁.crypto ▸ hK) (hek _) hlv
    (Shape.fits_leaf k v) h2
  have hcrypto := hw₂.crypto.trans hw₁.crypto
  have hnode : (⟨cut k c, c, .branch
      (if k.getMsbD c then t.summary tr.crypto scope else Shape.summary tr₁.crypto scope (.leaf k v))
      (if k.getMsbD c then Shape.summary tr₁.crypto scope (.leaf k v) else t.summary tr.crypto scope)⟩
      : Node) = Shape.node tr₂.crypto scope (Trie.join k v c t) := by
    rw [hw₁.crypto, hcrypto, join_eq]
    cases k.getMsbD c <;> rfl
  have h3 : tr₂.store scope (p, n) (Shape.node tr₂.crypto scope (Trie.join k v c t)) = .ok (s, tr') := by
    rw [← hnode]
    exact h3
  rw [join_eq] at h3
  rw [join_eq] at hjv
  obtain ⟨hs₃, hw₃, hm₃, hfits, rfl⟩ := hs₂.store_branch (hcrypto ▸ hK)
    (known_of_key hk (hbits.1.trans hbits.2) hkp) hjv (by split; exacts [hf, Shape.fits_leaf k v])
    (by split; exacts [Shape.fits_leaf k v, hf]) h3
  rw [← join_eq] at hm₃ hfits hjv
  have hcrypto₃ := hw₃.crypto.trans hcrypto
  have htopne : ∀ side, Radix.child (cut k c) c side ≠ (p, n) := by
    intro side heq
    exact not_below_top hnc (heq ▸ below_child_self (by omega) hq side)
  have hsidene : Radix.child (cut k c) c (!k.getMsbD c) ≠ Radix.child (cut k c) c (k.getMsbD c) := by
    intro heq
    exact not_below_both (by omega) hq (below_child_self (by omega) hq (k.getMsbD c))
      (heq ▸ below_child_self (by omega) hq (!k.getMsbD c))
  refine ⟨hs₃, ?_, ?_, hfits, ?_⟩
  · exact ((hw₁.mono fun _ he => he ▸ hbelow _).trans (hw₂.mono fun _ he => he ▸ hbelow _)).trans
      (hw₃.mono fun _ he => he ▸ ⟨le_refl n, hv.cut_entrance⟩)
  · refine Trie.Lays.join (m := memory K tr scope) hv (hcrypto₃ ▸ ht) hc.symm hlt hnc hkp ?_ ?_ ?_ ?_
    · rw [hm₃, hw₃.crypto]
    · rw [hw₃.frame _ _ (fun h => htopne _ h.2), hm₂, hcrypto₃, hw₁.crypto]
    · rw [hw₃.frame _ _ (fun h => htopne _ h.2), hw₂.frame _ _ (fun h => hsidene h.2), hm₁, hcrypto₃]
    · intro e h1 h2 h3
      rw [hw₃.frame _ _ (fun h => h1 h.2), hw₂.frame _ _ (fun h => h2 h.2), hw₁.frame _ _ (fun h => h3 h.2)]
  · rw [hcrypto, join_eq]

theorem Updated.branch {q : Id} {b : Nat} {l r x : Shape} {side : Bool} {next : Summary} (hK : CollisionFree tr.crypto K) (hv : (Trie.branch q b l r).Valid p n)
    (hf : Shape.Fits (.branch q b l r)) (he : Known K (p, n))
    (ht : Holds K tr scope p n (.branch q b l r)) (hx : x.Valid (Radix.child q b side).1 (b + 1))
    (hu : Updated K scope (Radix.child q b side).1 (b + 1) tr tr₁ next x)
    (h : tr₁.store scope (p, n) ⟨q, b, .branch (if side then l.summary tr.crypto scope else next)
      (if side then next else r.summary tr.crypto scope)⟩ = .ok (s, tr')) :
    Updated K scope p n tr tr' s (.branch q b (if side then l else x) (if side then x else r)) := by
  have hnew : (Trie.branch q b (if side then l else x) (if side then x else r)).Valid p n := by
    obtain ⟨h1, h2, h3, h4, hl, hr⟩ := hv
    cases side with
    | false => exact ⟨h1, h2, h3, h4, hx, hr⟩
    | true => exact ⟨h1, h2, h3, h4, hl, hx⟩
  have hstore : tr₁.store scope (p, n) (Shape.node tr₁.crypto scope
      (.branch q b (if side then l else x) (if side then x else r))) = .ok (s, tr') := by
    rw [← h, hu.summary, hu.within.crypto]
    cases side <;> rfl
  obtain ⟨hs', hw, hm, hfits, rfl⟩ := hu.sound.store_branch (hu.within.crypto ▸ hK) he hnew
    (by split; exacts [hf.sides.1, hu.fits]) (by split; exacts [hu.fits, hf.sides.2]) hstore
  have hdown : ∀ e, Below (Radix.child q b side).1 (b + 1) e → Below p n e := by
    intro e hb
    have hc := (below_child_iff hv.2.1 hv.2.2.2.1 side e).mp hb
    exact Below.trans ⟨hc.1.le, hc.2.1⟩ hv.1 hv.2.2.1
  have hcrypto := hw.crypto.trans hu.within.crypto
  refine ⟨hs', ?_, ?_, hfits, by rw [hu.within.crypto]⟩
  · exact (hu.within.mono hdown).trans (hw.mono fun _ he => he ▸ ⟨le_refl n, hv.cut_entrance⟩)
  · refine Trie.Lays.replace (m := memory K tr scope) (i := memory K tr₁ scope) hv
      (hcrypto ▸ ht) side hx (hw.crypto ▸ hu.holds) ?_ ?_ ?_
    · intro e he
      exact hu.within.frame scope e fun h => he h.2
    · rw [hm, hw.crypto]
    · intro e he
      exact hw.frame scope e fun h => he h.2

theorem Sound.store_leaf {u : Payload} (hs : Sound K tr) (hK : CollisionFree tr.crypto K)
    (hv : (Trie.leaf k u).Valid p n) (ht : Holds K tr scope p n (.leaf k u))
    (hkeys : Shape.KeysIn K (.leaf k u)) (h : tr.store scope (p, n) (v.node k) = .ok (s, tr')) :
    Updated K scope p n tr tr' s (.leaf k v) := by
  have hv' : (Trie.leaf k v).Valid p n := hv
  obtain ⟨hs', hw, hm, rfl⟩ := hs.store_node (t := .leaf k v) hK (hkeys.entrance hv) hv' (Shape.fits_leaf k v) h
  refine ⟨hs', hw.mono fun _ he => he ▸ ⟨le_refl n, hv.cut_entrance⟩, ?_, Shape.fits_leaf k v, rfl⟩
  refine ⟨by rw [hm, hw.crypto], fun e he hne => ?_⟩
  rw [hw.frame scope e fun h => hne h.2]
  exact ht.2 e he hne

/-- Inserting a leaf into a stored tree stores the tree with that leaf. -/
theorem Sound.insert (hk : k ∈ K) (fuel : Nat) {tr tr' : Tree} {t : Shape}
    {s : Summary} (hs : Sound K tr) (hK : CollisionFree tr.crypto K) (hkeys : t.KeysIn K)
    (hv : t.Valid p n) (hf : t.Fits) (ht : Holds K tr scope p n t) (hkp : cut k n = p)
    (h : Tree.insert scope (v.node k) fuel tr (p, n) (t.summary tr.crypto scope) = .ok (s, tr')) :
    Updated K scope p n tr tr' s (t.set k v) := by
  induction fuel generalizing tr tr' p n t s with
  | zero => exact absurd h (by simp [Tree.insert])
  | succ fuel ih =>
    rw [Tree.insert, if_neg (Shape.summary_count_ne_zero hf)] at h
    simp only [Except.ok_iff, Prod.exists] at h
    obtain ⟨old, tr₁, hload, h⟩ := h
    obtain ⟨rfl, hs₁, hreads⟩ := hs.load_top hK hkeys hv ht hload
    refine Updated.of_reads hreads ?_
    have ht₁ := hreads.holds ht
    rw [← hreads.crypto] at hK h
    have hpfx : (v.node k).pfx = k := rfl
    simp only [Shape.node_pfx, Shape.node_bits, hpfx] at h
    clear hload hreads hs ht
    by_cases hlt : min (common t.pfx k) t.bits < t.bits
    · rw [if_pos hlt] at h
      rw [Trie.set_of_lt v hlt]
      exact hs₁.split hK hkeys hv hf ht₁ hk hkp hlt h
    rw [if_neg hlt] at h
    cases t with
    | leaf key u =>
      rw [if_pos (show (Trie.leaf key u).bits = 256 from rfl)] at h
      rw [Trie.set_leaf_of_not_lt v u hlt]
      have hkey : k = key := by
        have := Trie.cut_of_not_lt hlt hv.cut_bits
        rwa [Trie.bits, cut_full k 256 (le_refl _)] at this
      subst hkey
      exact hs₁.store_leaf hK hv ht₁ hkeys h
    | branch q b l r =>
      have hb : b < 256 := hv.2.1
      rw [if_neg (show ¬ (Trie.branch q b l r).bits = 256 from hb.ne)] at h
      simp only [Shape.node_branch, Except.ok_iff, Prod.exists] at h
      obtain ⟨next, tr₂, hrec, hstore⟩ := h
      have hside := hv.side (k.getMsbD b)
      have hkb : cut k b = q := Trie.cut_of_not_lt hlt hv.cut_bits
      have hkc : cut k (b + 1) = (Radix.child q b (k.getMsbD b)).1 :=
        (Trie.cut_succ_eq_child hb hv.2.2.2.1 _).mpr ⟨hkb, rfl⟩
      have hu := ih hs₁ hK (t := if k.getMsbD b then r else l) (by split; exacts [hkeys.sides.2, hkeys.sides.1]) hside
        (by split; exacts [hf.sides.2, hf.sides.1]) (ht₁.side _) hkc
        (by rw [apply_ite (Shape.summary tr₁.crypto scope)]; exact hrec)
      have hset : (Trie.branch q b l r).set k v = .branch q b
          (if k.getMsbD b then l else (if k.getMsbD b then r else l).set k v)
          (if k.getMsbD b then (if k.getMsbD b then r else l).set k v else r) := by
        rw [Trie.set_branch_of_not_lt v hlt]
        cases k.getMsbD b <;> rfl
      rw [hset]
      exact Updated.branch hK hv hf (hkeys.entrance hv) ht₁ (hside.set v hkc) hu hstore

end Tree
end Kilogram.Index
