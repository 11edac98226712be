import Kilogram.Index.Delete

/-!
# Trees whose nodes are all planned

A tree built within one overlay has all its nodes among the pending ones.
-/

namespace Kilogram.Index
open Radix
open Except (ok_iff bind_of_ok)

theorem Node.length_encode_branch (q : Id) (b : Nat) (l r : Summary) :
    (Node.encode ⟨q, b, .branch l r⟩).length = 179 := by
  simp [Node.encode]

theorem Node.length_encode_le_branch (n : Node) : n.encode.length ≤ 179 := by
  obtain ⟨pfx, bits, body⟩ := n
  cases body <;> simp [Node.encode]

namespace Shape

theorem weigh_erase_le (f : Id × Payload → Nat) {t t' : Shape} {k : Id} (h : t.erase k = some t') :
    weigh f t' ≤ weigh f t := by
  induction t generalizing t' with
  | leaf key u => exact absurd h (by simp [Trie.erase])
  | branch q b l r ihl ihr =>
    cases hside : (if k.getMsbD b then r else l).erase k with
    | none =>
      rw [Trie.erase_branch_none hside, Option.some.injEq] at h
      subst h
      rw [weigh_branch]
      split <;> omega
    | some x =>
      rw [Trie.erase_branch_some hside, Option.some.injEq] at h
      subst h
      split at hside
      · next hb =>
        have := ihr hside
        simp only [hb, if_true, weigh_branch]
        omega
      · next hb =>
        have := ihl hside
        simp only [hb, weigh_branch]
        simpa using this

theorem Fits.erase {t t' : Shape} (hf : t.Fits) {k : Id} (h : t.erase k = some t') : t'.Fits := by
  obtain ⟨hc, hu, hr⟩ := hf
  rw [count_eq_weigh] at hc
  refine ⟨?_, fun c => ?_, fun c => ?_⟩
  · rw [count_eq_weigh]
    exact (weigh_erase_le _ h).trans_lt hc
  · exact (weigh_erase_le _ h).trans_lt (hu c)
  · exact (weigh_erase_le _ h).trans_lt (hr c)

end Shape

namespace Tree
variable [P : Primitives] {K : Set Id} {tr tr' : Tree} {scope : UInt8} {p k : Id} {n : Nat}
  {t : Shape} {s : Summary}

/-- Every node of the scope is in the plan. -/
def AllPlanned (K : Set Id) (tr : Tree) (scope : UInt8) : Prop :=
  ∀ e, memory K tr scope e ≠ none → tr.changed[nodeAddress tr.crypto scope e]? ≠ none

theorem Within.allPlanned {R : Id × Nat → Prop} {scope' : UInt8} (h : Within K scope' R tr tr')
    (hp : AllPlanned K tr scope) : AllPlanned K tr' scope := by
  intro e hm hc
  rw [h.crypto] at hc
  have hc₀ : tr.changed[nodeAddress tr.crypto scope e]? = none := not_not.mp fun hne => h.planned _ hne hc
  refine hp e ?_ hc₀
  -- an unplanned entrance is read from the table, which is the same
  have hsame : memory K tr' scope e = memory K tr scope e := by
    unfold memory
    split
    · simp only [view, h.crypto, hc, hc₀, h.table]
    · rfl
  rw [← hsame]
  exact hm

theorem Sound.pending_of_planned (hs : Sound K tr) (hK : CollisionFree tr.crypto K)
    (hp : AllPlanned K tr scope) {e : Id × Nat} {node : Node} (hm : memory K tr scope e = some node)
    (hsum : node.summary tr.crypto scope = .ok s) :
    tr.decoded[nodeAddress tr.crypto scope e]? = some (node, s) ∧ tr.changed[nodeAddress tr.crypto scope e]? =
        some (some (List.replicate (node.encode.length + 41) 0)) := by
  have he := known_of_memory hm
  have hplanned := hp e (by rw [hm]; simp)
  rw [memory_known he] at hm
  rcases hc : tr.changed[nodeAddress tr.crypto scope e]? with _ | _ | raw
  · exact absurd hc hplanned
  · rw [view, hc] at hm
    exact absurd hm (by simp)
  · have hmem := (hs.pending _).mpr ⟨raw, hc⟩
    obtain ⟨scope', hscope⟩ := (Maps.mem_iff _ _).mp hmem
    obtain ⟨node', s', hd, hc', hproved⟩ := hs.placeholder _ scope' hscope
    obtain rfl := hproved.scope_eq hK he
    have hnode := hproved.shown
    rw [hm, Option.some.injEq] at hnode
    subst hnode
    have hsum' := hproved.summary
    rw [hsum, Except.ok.injEq] at hsum'
    subst hsum'
    exact ⟨hd, hc.symm.trans hc'⟩

theorem Sound.load_planned (hs : Sound K tr) (hK : CollisionFree tr.crypto K)
    (hp : AllPlanned K tr scope) (hf : t.Fits) (ht : Holds K tr scope p n t) :
    tr.load scope (p, n) (t.summary tr.crypto scope) = .ok (t.node tr.crypto scope, tr) := by
  obtain ⟨hd, _⟩ := hs.pending_of_planned hK hp ht.top (Shape.summary_node hf)
  have hd : tr.decoded[tr.address scope p n]? = _ := hd
  have hcount : ¬ (t.summary tr.crypto scope).count = 0 := Shape.summary_count_ne_zero hf
  simp only [Tree.load, hd, ok_iff, hcount, not_false_eq_true, true_and, exists_const, ne_eq, not_true_eq_false]

theorem Sound.findInner_planned (hs : Sound K tr) (hK : CollisionFree tr.crypto K)
    (hp : AllPlanned K tr scope) (fuel : Nat) (hv : t.Valid p n) (hf : t.Fits)
    (ht : Holds K tr scope p n t) (hfuel : 257 ≤ fuel + n) :
    tr.findInner scope k fuel (p, n) (t.summary tr.crypto scope) = .ok ((t.get? k).map fun v => v.node k, tr) := by
  induction fuel generalizing p n t with
  | zero =>
    have := hv.bits_le
    omega
  | succ fuel ih =>
    rw [findInner, if_neg (Shape.summary_count_ne_zero hf), hs.load_planned hK hp hf ht]
    change (if prefixOf k (t.node tr.crypto scope).bits ≠ (t.node tr.crypto scope).pfx then _
      else _) = _
    rw [Shape.node_pfx, Shape.node_bits]
    cases t with
    | leaf key u =>
      have hfull : prefixOf k (Trie.leaf key u).bits = k := cut_full k 256 (le_refl _)
      rw [hfull]
      by_cases hkey : k = key
      · subst hkey
        rw [if_neg (show ¬ k ≠ (Trie.leaf k u).pfx from not_not.mpr rfl)]
        simp only [Trie.get?, if_true, Option.map_some]
        rfl
      · rw [if_pos (show k ≠ (Trie.leaf key u).pfx from hkey)]
        simp only [Trie.get?, if_neg (Ne.symm hkey), Option.map_none]
        rfl
    | branch q b l r =>
      by_cases hq : cut k b = q
      · rw [if_neg (show ¬ prefixOf k (Trie.branch q b l r).bits ≠ (Trie.branch q b l r).pfx from
          not_not.mpr hq)]
        have hside := hv.side (k.getMsbD b)
        have hbits := hv.1
        have hrec := ih (t := if k.getMsbD b then r else l) hside
          (by split; exacts [hf.sides.2, hf.sides.1]) (Trie.Lays.side ht _) (by omega)
        rw [apply_ite (Shape.summary tr.crypto scope)] at hrec
        refine Eq.trans hrec ?_
        rw [Trie.get?, if_pos hq]
        split <;> rfl
      · rw [if_pos (show prefixOf k (Trie.branch q b l r).bits ≠ (Trie.branch q b l r).pfx from hq),
          Trie.get?, if_neg hq]
        rfl

omit P in
theorem change_planned {a : Id} {old : Bytes} (value : Option Bytes)
    (hplan : tr.planBytes ≤ maxPlan) (hold : tr.changed[a]? = some (some old)) (hcap : old.length ≤ nodeCap)
    (hlen : (value.map List.length).getD 0 ≤ old.length) : ∃ tr', tr.change a value = .ok tr' := by
  have hle : tr.planBytes - old.length + (value.map List.length).getD 0 ≤ maxPlan := by
    simp only [maxPlan, nodeCap] at *
    omega
  have hlt : tr.planBytes - old.length + (value.map List.length).getD 0 < 2 ^ 64 := by
    simp only [maxPlan] at hle
    omega
  simp only [change, planWithout, hold, ok_iff, Except.ok.injEq, sizeAdd, exists_eq_left', if_pos hlt,
    Option.some.injEq, gt_iff_lt, Nat.not_lt.mpr hle, not_false_eq_true, exists_const, true_and,
    exists_eq']

theorem Sound.erase_planned (hs : Sound K tr) (hK : CollisionFree tr.crypto K)
    (hp : AllPlanned K tr scope) {e : Id × Nat} {node : Node} (hm : memory K tr scope e = some node)
    (hsum : node.summary tr.crypto scope = .ok s) :
    ∃ tr', tr.change (tr.address scope e.1 e.2) none = .ok tr' := by
  obtain ⟨_, hc⟩ := hs.pending_of_planned hK hp hm hsum
  refine change_planned none hs.plan hc ?_ (Nat.zero_le _)
  rw [List.length_replicate]
  exact node.length_encode_le

theorem Sound.store_planned (hs : Sound K tr) (hK : CollisionFree tr.crypto K)
    (hp : AllPlanned K tr scope) {e : Id × Nat} {node old : Node} {s' : Summary}
    (hm : memory K tr scope e = some old) (hold : old.summary tr.crypto scope = .ok s')
    (hlen : node.encode.length ≤ old.encode.length) (hsum : node.summary tr.crypto scope = .ok s) :
    ∃ tr', tr.store scope e node = .ok (s, tr') := by
  obtain ⟨hd, hc⟩ := hs.pending_of_planned hK hp hm hold
  obtain ⟨tr₁, h₁⟩ := change_planned (some (List.replicate (node.encode.length + 41) 0))
    hs.plan hc (by rw [List.length_replicate]; exact old.length_encode_le)
    (by simp only [Option.map_some, Option.getD_some, List.length_replicate]; omega)
  obtain ⟨planBytes, _, htr₁⟩ := change_eq_ok h₁
  -- the replaced proof leaves room for the new one
  have hsize : (tr₁.decoded.size + 1) * tr₁.layout.decodedEntry ≤ maxPlan := by
    rw [htr₁]
    change ((tr.decoded.erase _).size + 1) * tr.layout.decodedEntry ≤ maxPlan
    rw [Maps.size_erase_of_get _ hd]
    exact hs.cache
  simp only [Tree.store, address_entrance, hsum, h₁, ok_iff, Except.ok.injEq, exists_eq_left', gt_iff_lt,
    Nat.not_lt.mpr node.length_encode_le, not_false_eq_true, exists_const, true_and, Tree.remember,
    Nat.not_lt.mpr hsize, and_false, Prod.mk.injEq, exists_eq']

theorem Emptied.promote_planned {q : Id} {b : Nat} {l r : Shape} {side : Bool} {tr₁ : Tree}
    {gone : Summary} (hK : CollisionFree tr.crypto K) (hp : AllPlanned K tr scope)
    (hkeys : Shape.KeysIn K (.branch q b l r)) (hv : (Trie.branch q b l r).Valid p n)
    (hf : Shape.Fits (.branch q b l r)) (ht : Holds K tr scope p n (.branch q b l r))
    (hu : Emptied K scope (Radix.child q b side).1 (b + 1) tr tr₁ gone) : ∃ promoted tr₂ tr₃ s tr',
      tr₁.load scope (Radix.child q b !side)
        (if side then l.summary tr.crypto scope else r.summary tr.crypto scope) = .ok (promoted, tr₂) ∧
      tr₂.change (tr₂.address scope (Radix.child q b !side).1 (Radix.child q b !side).2) none = .ok tr₃ ∧
      tr₃.store scope (p, n) promoted = .ok (s, tr') := by
  have hside := hv.side (!side)
  have hlay := Trie.Lays.side ht (!side)
  have hflip : (if (!side) = true then r else l) = if side = true then l else r := by
    cases side <;> rfl
  rw [hflip] at hside hlay
  have hof : Shape.Fits (if side then l else r) := by
    split
    exacts [hf.sides.1, hf.sides.2]
  have hokeys : Shape.KeysIn K (if side then l else r) := by
    split
    exacts [hkeys.sides.1, hkeys.sides.2]
  have hK₁ : CollisionFree tr₁.crypto K := hu.within.crypto ▸ hK
  have hp₁ := hu.within.allPlanned hp
  have hother : Holds K tr₁ scope (Radix.child q b !side).1 (b + 1) (if side then l else r) := by
    rw [Holds, hu.within.crypto]
    refine hlay.congr hside fun e he => hu.within.frame scope e fun h => ?_
    exact absurd h.2 (by simpa only [Bool.not_not] using not_below_both hv.2.1 hv.2.2.2.1 he)
  have hload := hu.sound.load_planned hK₁ hp₁ hof hother
  obtain ⟨tr₂, herase⟩ := hu.sound.erase_planned hK₁ hp₁ hother.top (Shape.summary_node hof)
  obtain ⟨hs₂, hw₂, _⟩ := hu.sound.erase hK₁ (hokeys.entrance hside) herase
  -- the parent still stands at the entrance, and no node is longer than a branch
  have htop : memory K tr₂ scope (p, n) = some (Shape.node tr₂.crypto scope (.branch q b l r)) := by
    rw [hw₂.frame _ _ fun h => ?_, hu.within.frame _ _ fun h => not_below_top hv.1 h.2, hw₂.crypto, hu.within.crypto]
    · exact ht.top
    · have hself := below_child_self hv.2.1 hv.2.2.2.1 !side
      rw [show Radix.child q b (!side) = (p, n) from h.2.symm] at hself
      exact not_below_top hv.1 hself
  obtain ⟨tr', hstore⟩ := hs₂.store_planned (hw₂.crypto ▸ hK₁) (hw₂.allPlanned hp₁) htop (Shape.summary_node hf)
    ((Node.length_encode_le_branch _).trans (Node.length_encode_branch ..).ge)
    (by rw [hw₂.crypto]; exact Shape.summary_node hof)
  refine ⟨_, tr₁, tr₂, _, tr', ?_, herase, hstore⟩
  rw [← apply_ite (Shape.summary tr.crypto scope), ← hu.within.crypto]
  exact hload

theorem Updated.rewrite_planned {q : Id} {b : Nat} {l r x : Shape} {side : Bool} {tr₁ : Tree}
    {next : Summary} (hK : CollisionFree tr.crypto K) (hp : AllPlanned K tr scope)
    (hv : (Trie.branch q b l r).Valid p n) (hf : Shape.Fits (.branch q b l r))
    (ht : Holds K tr scope p n (.branch q b l r))
    (hu : Updated K scope (Radix.child q b side).1 (b + 1) tr tr₁ next x)
    (herase : (Trie.branch q b l r).erase k = some (.branch q b (if side then l else x) (if side then x else r))) :
    ∃ s tr', tr₁.store scope (p, n) ⟨q, b, .branch
      (if side then l.summary tr.crypto scope else next)
      (if side then next else r.summary tr.crypto scope)⟩ = .ok (s, tr') := by
  have htop : memory K tr₁ scope (p, n) = some (Shape.node tr₁.crypto scope (.branch q b l r)) := by
    rw [hu.within.frame _ _ fun h => not_below_top hv.1 h.2, hu.within.crypto]
    exact ht.top
  have hnode : (⟨q, b, .branch (if side then l.summary tr.crypto scope else next)
      (if side then next else r.summary tr.crypto scope)⟩ : Node) =
      Shape.node tr₁.crypto scope (.branch q b (if side then l else x) (if side then x else r)) := by
    rw [hu.summary, hu.within.crypto]
    cases side <;> rfl
  obtain ⟨tr', hstore⟩ := hu.sound.store_planned (hu.within.crypto ▸ hK) (hu.within.allPlanned hp)
    htop (Shape.summary_node hf)
    ((Node.length_encode_le_branch _).trans (Node.length_encode_branch ..).ge)
    (Shape.summary_node (hf.erase herase))
  exact ⟨_, tr', hnode ▸ hstore⟩

theorem Sound.delete_planned (fuel : Nat) {p : Id} {n : Nat} {t : Shape}
    (hs : Sound K tr) (hK : CollisionFree tr.crypto K) (hp : AllPlanned K tr scope)
    (hkeys : t.KeysIn K) (hv : t.Valid p n) (hf : t.Fits) (ht : Holds K tr scope p n t)
    (hk : ∃ u, (k, u) ∈ t.leaves) (hfuel : 257 ≤ fuel + n) :
    ∃ s tr', Tree.delete scope k fuel tr (p, n) (t.summary tr.crypto scope) = .ok (s, tr') := by
  induction fuel generalizing p n t with
  | zero =>
    have := hv.bits_le
    omega
  | succ fuel ih =>
    obtain ⟨u, hu⟩ := hk
    have hpfx : ¬ prefixOf k t.bits ≠ t.pfx := not_not.mpr (hv.leaf_cut hu)
    rw [Tree.delete, bind_of_ok (hs.load_planned hK hp hf ht)]
    simp only [Shape.node_pfx, Shape.node_bits]
    rw [bind_of_ok (Except.failIf_of_not hpfx _)]
    cases t with
    | leaf key v =>
      rw [if_pos (show (Trie.leaf key v).bits = 256 from rfl)]
      obtain ⟨tr', herase⟩ := hs.erase_planned hK hp ht.top (Shape.summary_node hf)
      exact ⟨_, tr', bind_of_ok herase _⟩
    | branch q b l r =>
      have hb : b < 256 := hv.2.1
      have hnb := hv.1
      rw [if_neg (show ¬ (Trie.branch q b l r).bits = 256 from hb.ne)]
      have hside := hv.side (k.getMsbD b)
      have hskeys : Shape.KeysIn K (if k.getMsbD b then r else l) := by
        split
        exacts [hkeys.sides.2, hkeys.sides.1]
      have hsf : Shape.Fits (if k.getMsbD b then r else l) := by
        split
        exacts [hf.sides.2, hf.sides.1]
      obtain ⟨changed, tr₁, hrec⟩ := ih hskeys hside hsf (Trie.Lays.side ht _) ⟨u, Trie.mem_side hv hu⟩ (by omega)
      have hbecame := (hs.delete fuel hK hskeys hside hsf (Trie.Lays.side ht _) hrec).2
      have hcount := hbecame.count_eq_zero_iff
      rw [apply_ite (Shape.summary tr.crypto scope)] at hrec
      cases herase : (if k.getMsbD b then r else l).erase k with
      | none =>
        rw [herase] at hbecame hcount
        obtain ⟨promoted, tr₂, tr₃, s, tr', h1, h2, h3⟩ := Emptied.promote_planned hK hp hkeys hv hf ht hbecame
        refine ⟨s, tr', (bind_of_ok hrec _).trans ((if_pos (hcount.mpr rfl)).trans ?_)⟩
        exact (bind_of_ok h1 _).trans ((bind_of_ok h2 _).trans h3)
      | some x =>
        rw [herase] at hbecame hcount
        obtain ⟨s, tr', hstore⟩ := Updated.rewrite_planned hK hp hv hf ht hbecame (Trie.erase_branch_some herase)
        refine ⟨s, tr', (bind_of_ok hrec _).trans ?_⟩
        exact (if_neg fun h0 => absurd (hcount.mp h0) (by simp)).trans hstore

end Tree
end Kilogram.Index
