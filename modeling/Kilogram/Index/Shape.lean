import Kilogram.Index.Node

/-!
# The tree a set of leaves has

`Shape` is the compressed radix tree of the leaves.
-/

namespace Kilogram.Index

abbrev Shape := Radix.Trie 256 Payload

namespace Shape
open Radix

def weigh (f : Id × Payload → Nat) (t : Shape) : Nat := (t.leaves.map f).sum
def usedBy (c : UInt8) (x : Id × Payload) : Nat := if x.2.owner = c then x.2.charge else 0

def reservedBy (c : UInt8) (x : Id × Payload) : Nat :=
  if x.2.owner = c then x.2.reserved.toNat else 0

def count (t : Shape) : Nat := t.leaves.length
def used (t : Shape) (c : UInt8) : Nat := t.weigh (usedBy c)
def reserved (t : Shape) (c : UInt8) : Nat := t.weigh (reservedBy c)

/-- Every total of the tree is below the limit of its counter. -/
def Fits (t : Shape) : Prop := t.count < 2 ^ 64 ∧ (∀ c, t.used c < 2 ^ 64) ∧ ∀ c, t.reserved c < 2 ^ 64

/-- The totals of a subtree and its digest, as a parent keeps them. -/
def totals (t : Shape) (digest : Id) : Summary :=
  ⟨digest, UInt64.ofNat t.count, ⟨UInt64.ofNat (t.used 0), UInt64.ofNat (t.used 1)⟩,
    ⟨UInt64.ofNat (t.reserved 0), UInt64.ofNat (t.reserved 1)⟩⟩

variable {q : Id} {b : Nat} {l r : Shape}

@[simp] theorem weigh_leaf (f : Id × Payload → Nat) (k : Id) (v : Payload) :
    weigh f (.leaf k v) = f (k, v) := by simp [weigh, Trie.leaves]

@[simp] theorem weigh_branch (f : Id × Payload → Nat) (q : Id) (b : Nat) (l r : Shape) :
    weigh f (.branch q b l r) = weigh f l + weigh f r := by simp [weigh, Trie.leaves]

theorem count_eq_weigh (t : Shape) : t.count = t.weigh fun _ => 1 := by simp [count, weigh]
theorem count_pos (t : Shape) : 0 < t.count := List.length_pos_of_ne_nil (Trie.leaves_ne_nil t)

theorem fits_leaf (k : Id) (v : Payload) : Fits (.leaf k v) := by
  have hlen := v.length_le
  have hres := v.reserved.toNat_lt
  refine ⟨by simp [count, Trie.leaves], fun c => ?_, fun c => ?_⟩
  · simp only [used, weigh_leaf, usedBy, Payload.charge, maxValue, nodeCap] at hlen ⊢
    split <;> omega
  · simp only [reserved, weigh_leaf, reservedBy]
    split <;> omega

theorem fits_branch_iff : Fits (.branch q b l r) ↔ l.count + r.count < 2 ^ 64 ∧
    (∀ c, l.used c + r.used c < 2 ^ 64) ∧ ∀ c, l.reserved c + r.reserved c < 2 ^ 64 := by
  simp only [Fits, count_eq_weigh, used, reserved, weigh_branch]

theorem Fits.sides (h : Fits (.branch q b l r)) : l.Fits ∧ r.Fits := by
  obtain ⟨hc, hu, hr⟩ := fits_branch_iff.mp h
  exact ⟨⟨by omega, fun c => by have := hu c; omega, fun c => by have := hr c; omega⟩,
    ⟨by omega, fun c => by have := hu c; omega, fun c => by have := hr c; omega⟩⟩

/-- Only the two contexts own leaves. -/
theorem weigh_of_one_lt {c : UInt8} (hc : 1 < c) (t : Shape) : t.used c = 0 ∧ t.reserved c = 0 := by
  have hne : ∀ x ∈ t.leaves, x.2.owner ≠ c := by
    rintro x - rfl
    exact absurd x.2.owner_le (UInt8.not_le.mpr hc)
  constructor
  · refine List.sum_eq_zero ?_
    simp only [List.mem_map]
    rintro _ ⟨x, hx, rfl⟩
    exact if_neg (hne x hx)
  · refine List.sum_eq_zero ?_
    simp only [List.mem_map]
    rintro _ ⟨x, hx, rfl⟩
    exact if_neg (hne x hx)

private theorem checkedAdd_ofNat_iff {x y : Nat} (hx : x < 2 ^ 64) (hy : y < 2 ^ 64)
    (s : UInt64) : checkedAdd (UInt64.ofNat x) (UInt64.ofNat y) = some s ↔
      x + y < 2 ^ 64 ∧ s = UInt64.ofNat (x + y) := by
  rw [checkedAdd_eq_some, UInt64.toNat_ofNat_of_lt' hx, UInt64.toNat_ofNat_of_lt' hy]
  constructor
  · intro h
    have hlt := s.toNat_lt
    refine ⟨by omega, ?_⟩
    rw [← h, UInt64.ofNat_toNat]
  · rintro ⟨hlt, rfl⟩
    exact UInt64.toNat_ofNat_of_lt' hlt

variable [Primitives] (crypto : Crypto) (scope : UInt8)

def node : Shape → Node
  | .leaf k v => v.node k
  | .branch q b l r => ⟨q, b, .branch
      (totals l (crypto.hash scope (ascii "node") (node l).encode))
      (totals r (crypto.hash scope (ascii "node") (node r).encode))⟩

def summary (t : Shape) : Summary := t.totals (crypto.hash scope (ascii "node") (node crypto scope t).encode)

def summaryOption : Option Shape → Summary
  | none => Summary.default
  | some t => summary crypto scope t

variable {crypto scope}

theorem node_branch : node crypto scope (.branch q b l r) =
    ⟨q, b, .branch (summary crypto scope l) (summary crypto scope r)⟩ := rfl

theorem node_pfx (t : Shape) : (node crypto scope t).pfx = t.pfx := by cases t <;> rfl
theorem node_bits (t : Shape) : (node crypto scope t).bits = t.bits := by cases t <;> rfl

theorem summary_count_ne_zero {t : Shape} (h : t.Fits) : (summary crypto scope t).count ≠ 0 := by
  intro h0
  have hc : (UInt64.ofNat t.count).toNat = t.count := UInt64.toNat_ofNat_of_lt' h.1
  have hpos := count_pos t
  have hzero : UInt64.ofNat t.count = 0 := h0
  rw [hzero] at hc
  simp only [UInt64.toNat_zero] at hc
  omega

theorem summary_leaf (k : Id) (v : Payload) :
    (v.node k).summary crypto scope = .ok (summary crypto scope (.leaf k v)) := by
  have hcharge : v.length + 41 + 32 + UInt64.ofNat (2 * nodeCap) = UInt64.ofNat v.charge := by
    rw [← v.toNat_charge, UInt64.ofNat_toNat]
  rcases Two.eq_zero_or_one v.owner_le with h | h <;>
    simp only [Node.summary, Payload.node, Index.leaf, summary, totals, Summary.default, count,
      Trie.leaves, used, reserved, weigh_leaf, usedBy, reservedBy, Two.set, node, h, hcharge] <;>
    simp

/-- A branch over two trees has a summary exactly when its totals fit, and then it is the
summary of the joined tree. -/
theorem summary_branch_iff (hl : l.Fits) (hr : r.Fits) (s : Summary) :
    (node crypto scope (.branch q b l r)).summary crypto scope = .ok s ↔
      Fits (.branch q b l r) ∧ s = summary crypto scope (.branch q b l r) := by
  obtain ⟨hlc, hlu, hlr⟩ := hl
  obtain ⟨hrc, hru, hrr⟩ := hr
  have htotal : ∀ f, weigh f (.branch q b l r) = weigh f l + weigh f r := fun f => weigh_branch f q b l r
  have hsum : summary crypto scope (.branch q b l r) =
      ⟨crypto.hash scope (ascii "node") (node crypto scope (.branch q b l r)).encode,
        UInt64.ofNat (l.count + r.count),
        ⟨UInt64.ofNat (l.used 0 + r.used 0), UInt64.ofNat (l.used 1 + r.used 1)⟩,
        ⟨UInt64.ofNat (l.reserved 0 + r.reserved 0), UInt64.ofNat (l.reserved 1 + r.reserved 1)⟩⟩ := by
    simp only [summary, totals, count_eq_weigh, used, reserved, htotal]
  rw [hsum, fits_branch_iff]
  simp only [node_branch, Node.summary, summary, totals, Except.ok_iff, checkedAdd_ofNat_iff hlc hrc,
    checkedAdd_ofNat_iff (hlu _) (hru _), checkedAdd_ofNat_iff (hlr _) (hrr _)]
  constructor
  · rintro ⟨_, ⟨h1, rfl⟩, _, ⟨h2, rfl⟩, _, ⟨h3, rfl⟩, _, ⟨h4, rfl⟩, _, ⟨h5, rfl⟩, rfl⟩
    refine ⟨⟨h1, fun c => ?_, fun c => ?_⟩, rfl⟩
    · by_cases hc : c ≤ 1
      · rcases Two.eq_zero_or_one hc with rfl | rfl
        · exact h2
        · exact h4
      · have h0 := fun t => (weigh_of_one_lt (UInt8.not_le.mp hc) t).1
        rw [h0 l, h0 r]
        norm_num
    · by_cases hc : c ≤ 1
      · rcases Two.eq_zero_or_one hc with rfl | rfl
        · exact h3
        · exact h5
      · have h0 := fun t => (weigh_of_one_lt (UInt8.not_le.mp hc) t).2
        rw [h0 l, h0 r]
        norm_num
  · rintro ⟨⟨hc, hu, hr⟩, rfl⟩
    exact ⟨_, ⟨hc, rfl⟩, _, ⟨hu 0, rfl⟩, _, ⟨hr 0, rfl⟩, _, ⟨hu 1, rfl⟩, _, ⟨hr 1, rfl⟩, rfl⟩

theorem summary_node {t : Shape} (h : t.Fits) :
    (node crypto scope t).summary crypto scope = .ok (summary crypto scope t) := by
  cases t with
  | leaf k v => exact summary_leaf k v
  | branch q b l r => exact (summary_branch_iff h.sides.1 h.sides.2 _).mpr ⟨h, rfl⟩

theorem wf_node {p : Id} {n : Nat} {t : Shape} (hv : t.Valid p n) (hf : t.Fits) : (node crypto scope t).Wf := by
  cases t with
  | leaf k v => exact v.wf_node k
  | branch q b l r =>
    have hs := hf.sides
    exact ⟨hv.2.2.2.1, hv.2.1, summary_count_ne_zero hs.1, summary_count_ne_zero hs.2⟩

end Shape
end Kilogram.Index
