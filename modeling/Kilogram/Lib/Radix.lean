import Mathlib.Tactic
import Mathlib.Data.List.Nodup

/-!
# Compressed binary radix trees

Keys are bit strings of one fixed width, read from the most significant bit. A subtree is entered
through an *entrance*, a bit string of which only the first `n` bits count.
-/

namespace Radix
open List (mem_append mem_cons mem_map mem_singleton)
variable {w : Nat} {α : Type}

/-- The first `n` bits of a key, the others cleared. -/
def cut (key : BitVec w) (n : Nat) : BitVec w := key &&& ~~~(BitVec.allOnes w >>> n)

/-- Set bit `n`, counted from the most significant one. -/
def mark (key : BitVec w) (n : Nat) : BitVec w := key ||| BitVec.ofNat w (2 ^ (w - 1 - n))

/-- The length of the longest common initial part of two keys. -/
def agree (a b : BitVec w) : Nat := ((List.range w).find? fun i => a.getMsbD i != b.getMsbD i).getD w

/-- The entrance below a branch: one more bit is fixed. -/
def child (pfx : BitVec w) (bits : Nat) (right : Bool) : BitVec w × Nat :=
  (if right then mark pfx bits else pfx, bits + 1)

theorem getMsbD_cut (key : BitVec w) (n i : Nat) : (cut key n).getMsbD i = (decide (i < n) && key.getMsbD i) := by
  by_cases hi : i < w
  · by_cases hn : i < n
    · simp only [cut, BitVec.getMsbD_and, BitVec.getMsbD_not, BitVec.getMsbD_ushiftRight,
        BitVec.getMsbD_allOnes, hi, hn, decide_true, Bool.true_and]
      simp
    · have hs : i - n < w := by omega
      simp only [cut, BitVec.getMsbD_and, BitVec.getMsbD_not, BitVec.getMsbD_ushiftRight,
        BitVec.getMsbD_allOnes, hi, hn, hs, decide_true, decide_false]
      simp
  · rw [BitVec.getMsbD_of_ge _ _ (by omega), BitVec.getMsbD_of_ge _ _ (by omega), Bool.and_false]

theorem getMsbD_mark (key : BitVec w) (n i : Nat) (hn : n < w) :
    (mark key n).getMsbD i = (decide (i = n) || key.getMsbD i) := by
  by_cases hi : i < w
  · have hbit : (BitVec.ofNat w (2 ^ (w - 1 - n))).getMsbD i = decide (i = n) := by
      rw [BitVec.getMsbD_eq_getLsbD, BitVec.getLsbD_ofNat, Nat.testBit_two_pow]
      by_cases he : i = n
      · subst he; simp [hi]; omega
      · have : ¬ (w - 1 - n = w - 1 - i) := by omega
        simp [he, this]
    rw [mark, BitVec.getMsbD_or, hbit, Bool.or_comm]
  · have he : i ≠ n := by omega
    rw [BitVec.getMsbD_of_ge _ _ (by omega), BitVec.getMsbD_of_ge _ _ (by omega)]
    simp [he]

theorem eq_of_getMsbD (a b : BitVec w) (h : ∀ i < w, a.getMsbD i = b.getMsbD i) : a = b := by
  apply BitVec.eq_of_getMsbD_eq
  intro i hi
  exact h i hi

theorem cut_eq_iff (a b : BitVec w) (n : Nat) : cut a n = cut b n ↔ ∀ i < n, a.getMsbD i = b.getMsbD i := by
  constructor
  · intro h i hi
    have := congrArg (fun k => k.getMsbD i) h
    simpa only [getMsbD_cut, hi, decide_true, Bool.true_and] using this
  · intro h
    apply eq_of_getMsbD
    intro i _
    by_cases hi : i < n
    · simp only [getMsbD_cut, hi, h i hi]
    · simp only [getMsbD_cut, hi, decide_false, Bool.false_and]

@[simp] theorem cut_cut (key : BitVec w) (m n : Nat) : cut (cut key m) n = cut key (min m n) := by
  apply eq_of_getMsbD
  intro i _
  simp only [getMsbD_cut, Nat.lt_min]
  by_cases hm : i < m <;> by_cases hn : i < n <;> simp [hm, hn]

@[simp] theorem cut_zero (key : BitVec w) : cut key 0 = 0#w := by
  apply eq_of_getMsbD
  intro i _
  simp [getMsbD_cut]

theorem cut_full (key : BitVec w) (n : Nat) (h : w ≤ n) : cut key n = key := by
  apply eq_of_getMsbD
  intro i hi
  have : i < n := by omega
  simp [getMsbD_cut, this]

variable {a b : BitVec w}

theorem cut_of_cut_eq {m n : Nat} (h : cut a n = cut b n) (hm : m ≤ n) : cut a m = cut b m :=
  (cut_eq_iff a b m).mpr fun i hi => (cut_eq_iff a b n).mp h i (by omega)

theorem cut_succ_eq_iff (a b : BitVec w) (n : Nat) :
    cut a (n + 1) = cut b (n + 1) ↔ cut a n = cut b n ∧ a.getMsbD n = b.getMsbD n := by
  simp only [cut_eq_iff]
  constructor
  · intro h
    exact ⟨fun i hi => h i (by omega), h n (by omega)⟩
  · rintro ⟨h, hn⟩ i hi
    rcases Nat.lt_succ_iff_lt_or_eq.mp hi with hlt | rfl
    · exact h i hlt
    · exact hn

theorem agree_le (a b : BitVec w) : agree a b ≤ w := by
  unfold agree
  cases h : (List.range w).find? fun i => a.getMsbD i != b.getMsbD i with
  | none => exact le_refl w
  | some i =>
    have := List.mem_range.mp (List.mem_of_find?_eq_some h)
    simpa using this.le

theorem getMsbD_of_lt_agree {i : Nat} (h : i < agree a b) : a.getMsbD i = b.getMsbD i := by
  have hw : i < w := lt_of_lt_of_le h (agree_le a b)
  by_contra hne
  unfold agree at h
  cases hf : (List.range w).find? fun i => a.getMsbD i != b.getMsbD i with
  | none =>
    have := List.find?_eq_none.mp hf i (List.mem_range.mpr hw)
    exact hne (by simpa using this)
  | some j =>
    rw [hf, Option.getD_some] at h
    obtain ⟨_, l₁, l₂, hl, hall⟩ := List.find?_eq_some_iff_append.mp hf
    have hj : l₁.length = j := by
      have := congrArg (fun l => l[l₁.length]?) hl
      have hlen : l₁.length < w := by
        have := congrArg List.length hl
        simp at this
        omega
      simpa [hlen] using this
    have hmem : i ∈ l₁ := by
      have hi' : i < l₁.length := by omega
      have := congrArg (fun l => l[i]?) hl
      rw [List.getElem?_append_left hi', List.getElem?_eq_getElem hi'] at this
      have hr : (List.range w)[i]? = some i := by simp [hw]
      rw [hr] at this
      exact Option.some.inj this ▸ List.getElem_mem hi'
    exact hne (by simpa using hall i hmem)

theorem getMsbD_agree_ne (h : agree a b < w) : a.getMsbD (agree a b) ≠ b.getMsbD (agree a b) := by
  unfold agree at h ⊢
  cases hf : (List.range w).find? fun i => a.getMsbD i != b.getMsbD i with
  | none => rw [hf] at h; simp at h
  | some j => simpa using List.find?_some hf

theorem cut_agree (a b : BitVec w) : cut a (agree a b) = cut b (agree a b) :=
  (cut_eq_iff a b _).mpr fun _ hi => getMsbD_of_lt_agree hi

theorem le_agree {n : Nat} (hn : n ≤ w) (h : cut a n = cut b n) : n ≤ agree a b := by
  by_contra hlt
  have hw : agree a b < w := by omega
  exact getMsbD_agree_ne hw ((cut_eq_iff a b n).mp h _ (by omega))

/-- A compressed tree: a leaf holds its whole key, a branch the part its keys share. -/
inductive Trie (w : Nat) (α : Type) where
  | leaf (key : BitVec w) (value : α)
  | branch (pfx : BitVec w) (bits : Nat) (left right : Trie w α)

namespace Trie

/-- The bits shared by every key below. -/
def pfx : Trie w α → BitVec w
  | leaf key _ => key
  | branch q _ _ _ => q

/-- How many bits are shared by every key below. -/
def bits : Trie w α → Nat
  | leaf _ _ => w
  | branch _ b _ _ => b

def leaves : Trie w α → List (BitVec w × α)
  | leaf key value => [(key, value)]
  | branch _ _ l r => l.leaves ++ r.leaves

/-- Every node fits below its entrance, and the two sides of a branch differ at its bit. -/
def Valid : BitVec w → Nat → Trie w α → Prop
  | p, n, leaf key _ => n ≤ w ∧ cut key n = p
  | p, n, branch q b l r => n ≤ b ∧ b < w ∧ cut q n = p ∧ cut q b = q ∧ Valid q (b + 1) l ∧ Valid (mark q b) (b + 1) r

/-- The entrances strictly below the top node. They do not depend on where the top is entered. -/
def inner : Trie w α → List (BitVec w × Nat)
  | leaf _ _ => []
  | branch q b l r => ((q, b + 1) :: l.inner) ++ ((mark q b, b + 1) :: r.inner)

def get? (k : BitVec w) : Trie w α → Option α
  | leaf key value => if key = k then some value else none
  | branch q b l r =>
    if cut k b = q then (if k.getMsbD b then r.get? k else l.get? k) else none

/-- A new branch at bit `c` over an existing tree and one new leaf. -/
def join (k : BitVec w) (v : α) (c : Nat) (t : Trie w α) : Trie w α :=
  if k.getMsbD c then branch (cut k c) c t (leaf k v) else branch (cut k c) c (leaf k v) t

def set (k : BitVec w) (v : α) : Trie w α → Trie w α
  | leaf key value =>
    if agree key k < w then join k v (agree key k) (leaf key value) else leaf k v
  | branch q b l r =>
    if min (agree q k) b < b then join k v (min (agree q k) b) (branch q b l r)
    else if k.getMsbD b then branch q b l (r.set k v) else branch q b (l.set k v) r

/-- Remove the leaf reached by `k`; `none` when nothing is left. A branch that loses one side
is replaced by the other. -/
def erase (k : BitVec w) : Trie w α → Option (Trie w α)
  | leaf _ _ => none
  | branch q b l r =>
    if k.getMsbD b then
      match r.erase k with
      | none => some l
      | some r' => some (branch q b l r')
    else
      match l.erase k with
      | none => some r
      | some l' => some (branch q b l' r)

variable {p q k : BitVec w} {n b : Nat} {t l r : Trie w α}

theorem Valid.bits_le (h : t.Valid p n) : n ≤ t.bits ∧ t.bits ≤ w := by
  cases t with
  | leaf key value => exact ⟨h.1, le_refl w⟩
  | branch q b l r => exact ⟨h.1, h.2.1.le⟩

theorem Valid.cut_pfx (h : t.Valid p n) : cut t.pfx n = p := by
  cases t with
  | leaf key value => exact h.2
  | branch q b l r => exact h.2.2.1

theorem Valid.cut_bits (h : t.Valid p n) : cut t.pfx t.bits = t.pfx := by
  cases t with
  | leaf key value => exact cut_full key w (le_refl w)
  | branch q b l r => exact h.2.2.2.1

theorem Valid.cut_entrance (h : t.Valid p n) : cut p n = p := by
  rw [← h.cut_pfx, cut_cut, Nat.min_self]

theorem Valid.at_depth {m : Nat} (h : t.Valid p n) (hm : m ≤ t.bits) : t.Valid (cut t.pfx m) m := by
  cases t with
  | leaf key value => exact ⟨hm, rfl⟩
  | branch q b l r => exact ⟨hm, h.2.1, rfl, h.2.2.2⟩

theorem Valid.side (h : (branch q b l r).Valid p n)
    (right : Bool) : (if right then r else l).Valid (child q b right).1 (b + 1) := by
  cases right with
  | false => exact h.2.2.2.2.1
  | true => exact h.2.2.2.2.2

theorem getMsbD_of_cut_eq (h : cut q b = q) : q.getMsbD b = false := by
  rw [← h, getMsbD_cut]
  simp

theorem cut_mark (hb : b < w) : cut (mark q b) b = cut q b := by
  rw [cut_eq_iff]
  intro i hi
  have : i ≠ b := by omega
  simp [getMsbD_mark q b i hb, this]

theorem cut_succ_eq_child (hb : b < w) (hq : cut q b = q) (right : Bool) :
    cut k (b + 1) = (child q b right).1 ↔ cut k b = q ∧ k.getMsbD b = right := by
  have hself : cut (child q b right).1 (b + 1) = (child q b right).1 := by
    apply eq_of_getMsbD
    intro i _
    have hqi := congrArg (fun x => x.getMsbD i) hq
    simp only [getMsbD_cut] at hqi
    cases right with
    | false =>
      by_cases hi : i < b
      · have : i < b + 1 := by omega
        simp [child, getMsbD_cut, this]
      · have : q.getMsbD i = false := by simpa [hi] using hqi.symm
        simp [child, getMsbD_cut, this]
    | true =>
      simp only [child, if_true, getMsbD_cut, getMsbD_mark q b i hb]
      by_cases hi : i < b + 1
      · simp [hi]
      · have hne : i ≠ b := by omega
        have hlt : ¬ i < b := by omega
        have : q.getMsbD i = false := by simpa [hlt] using hqi.symm
        simp [hi, hne, this]
  have hbit : (child q b right).1.getMsbD b = right := by
    cases right with
    | false => simpa [child] using getMsbD_of_cut_eq hq
    | true => simp [child, getMsbD_mark q b b hb]
  have hlow : cut (child q b right).1 b = q := by
    cases right with
    | false => simpa [child] using hq
    | true => simpa [child, cut_mark hb] using hq
  rw [← hself, cut_succ_eq_iff, hbit, hlow]

variable {v : α} {x : BitVec w × α} {t' : Trie w α} {e : BitVec w × Nat}

theorem Valid.leaf_cut (h : t.Valid p n) (hk : (k, v) ∈ t.leaves) : cut k t.bits = t.pfx := by
  induction t generalizing p n with
  | leaf key value =>
    simp only [leaves, mem_singleton, Prod.mk.injEq] at hk
    rw [hk.1]
    exact cut_full key w (le_refl w)
  | branch q b l r ihl ihr =>
    obtain ⟨_, hb, _, hq, hl, hr⟩ := h
    rcases mem_append.mp hk with hk | hk
    · have hcut := cut_of_cut_eq (a := k) (b := l.pfx) (m := b + 1) ((ihl hl hk).trans hl.cut_bits.symm) hl.bits_le.1
      exact ((cut_succ_eq_child hb hq false).mp (hcut.trans hl.cut_pfx)).1
    · have hcut := cut_of_cut_eq (a := k) (b := r.pfx) (m := b + 1) ((ihr hr hk).trans hr.cut_bits.symm) hr.bits_le.1
      exact ((cut_succ_eq_child hb hq true).mp (hcut.trans hr.cut_pfx)).1

theorem Valid.leaf_below (h : t.Valid p n) (hk : (k, v) ∈ t.leaves) : cut k n = p := by
  have := cut_of_cut_eq (a := k) (b := t.pfx) ((h.leaf_cut hk).trans h.cut_bits.symm) h.bits_le.1
  exact this.trans h.cut_pfx

theorem mem_side (h : (branch q b l r).Valid p n) (hx : x ∈ (branch q b l r).leaves) :
    x ∈ (if x.1.getMsbD b then r else l).leaves := by
  obtain ⟨_, hb, _, hq, hl, hr⟩ := h
  rcases mem_append.mp hx with hx | hx
  · have hbit := ((cut_succ_eq_child hb hq false).mp (hl.leaf_below hx)).2
    rw [if_neg (by rw [hbit]; simp)]
    exact hx
  · have hbit := ((cut_succ_eq_child hb hq true).mp (hr.leaf_below hx)).2
    rw [if_pos hbit]
    exact hx

theorem Valid.keys_nodup (h : t.Valid p n) : (t.leaves.map Prod.fst).Nodup := by
  induction t generalizing p n with
  | leaf key value => simp [leaves]
  | branch q b l r ihl ihr =>
    obtain ⟨_, hb, _, hq, hl, hr⟩ := h
    rw [leaves, List.map_append]
    refine (ihl hl).append (ihr hr) fun k hkl hkr => ?_
    obtain ⟨x, hx, rfl⟩ := mem_map.mp hkl
    obtain ⟨y, hy, hxy⟩ := mem_map.mp hkr
    have h0 := ((cut_succ_eq_child hb hq false).mp (hl.leaf_below hx)).2
    have h1 := ((cut_succ_eq_child hb hq true).mp (hr.leaf_below hy)).2
    rw [hxy, h0] at h1
    exact Bool.false_ne_true h1

theorem leaves_ne_nil (t : Trie w α) : t.leaves ≠ [] := by
  induction t with
  | leaf key value => simp [leaves]
  | branch q b l r ihl _ => simp [leaves, ihl]

/-- Lookup follows the bits of the key and finds exactly the leaves. -/
theorem Valid.get?_eq_some_iff (h : t.Valid p n) : t.get? k = some v ↔ (k, v) ∈ t.leaves := by
  induction t generalizing p n with
  | leaf key value =>
    simp only [get?, leaves, mem_singleton, Prod.mk.injEq]
    constructor
    · intro he
      split at he
      · next hk => exact ⟨hk.symm, (Option.some.inj he).symm⟩
      · simp at he
    · rintro ⟨rfl, rfl⟩
      simp
  | branch q b l r ihl ihr =>
    obtain ⟨_, hb, _, hq, hl, hr⟩ := h
    simp only [get?, leaves, mem_append]
    constructor
    · intro he
      split at he
      · split at he
        · exact .inr ((ihr hr).mp he)
        · exact .inl ((ihl hl).mp he)
      · simp at he
    · rintro (hm | hm)
      · have hc := (cut_succ_eq_child hb hq false).mp (hl.leaf_below hm)
        rw [if_pos hc.1, hc.2]
        simpa using (ihl hl).mpr hm
      · have hc := (cut_succ_eq_child hb hq true).mp (hr.leaf_below hm)
        rw [if_pos hc.1, hc.2]
        simpa using (ihr hr).mpr hm

theorem getMsbD_agree_pfx (h : min (agree t.pfx k) t.bits < t.bits) (hw : t.bits ≤ w) :
    t.pfx.getMsbD (min (agree t.pfx k) t.bits) = !k.getMsbD (min (agree t.pfx k) t.bits) := by
  have hlt : agree t.pfx k < t.bits := by omega
  have hmin : min (agree t.pfx k) t.bits = agree t.pfx k := by omega
  have hne := getMsbD_agree_ne (a := t.pfx) (b := k) (by omega)
  rw [hmin]
  cases ha : t.pfx.getMsbD (agree t.pfx k) <;> cases hb : k.getMsbD (agree t.pfx k) <;> simp_all

theorem Valid.join (h : t.Valid p n) (v : α) (hk : cut k n = p) (hc : min (agree t.pfx k) t.bits < t.bits) :
    (t.join k v (min (agree t.pfx k) t.bits)).Valid p n := by
  obtain ⟨hn, hw⟩ := h.bits_le
  have hle : n ≤ min (agree t.pfx k) t.bits := le_min (le_agree (by omega) (h.cut_pfx.trans hk.symm)) hn
  have hbit := getMsbD_agree_pfx hc hw
  have hcut : cut t.pfx (min (agree t.pfx k) t.bits) = cut k (min (agree t.pfx k) t.bits) :=
    cut_of_cut_eq (cut_agree t.pfx k) (by omega)
  revert hle hbit hcut hc
  generalize min (agree t.pfx k) t.bits = c
  intro hc hle hbit hcut
  have hself : cut (cut k c) c = cut k c := by rw [cut_cut, Nat.min_self]
  have htop : cut (cut k c) n = p := by rw [cut_cut, Nat.min_eq_right hle, hk]
  have hold : cut t.pfx (c + 1) = (child (cut k c) c (!k.getMsbD c)).1 :=
    (cut_succ_eq_child (by omega) hself _).mpr ⟨hcut, hbit⟩
  have hnew : cut k (c + 1) = (child (cut k c) c (k.getMsbD c)).1 :=
    (cut_succ_eq_child (by omega) hself _).mpr ⟨rfl, rfl⟩
  have ht := h.at_depth (m := c + 1) (by omega)
  rw [hold] at ht
  unfold Trie.join
  cases hb : k.getMsbD c with
  | false =>
    rw [hb] at ht hnew
    exact ⟨hle, by omega, htop, hself, ⟨by omega, hnew⟩, ht⟩
  | true =>
    rw [hb] at ht hnew
    exact ⟨hle, by omega, htop, hself, ht, ⟨by omega, hnew⟩⟩

theorem set_of_lt (v : α) (h : min (agree t.pfx k) t.bits < t.bits) :
    t.set k v = t.join k v (min (agree t.pfx k) t.bits) := by
  cases t with
  | leaf key value =>
    have hmin : min (agree key k) w = agree key k := Nat.min_eq_left (agree_le key k)
    simp only [pfx, bits, hmin] at h ⊢
    rw [set, if_pos h]
  | branch q b l r =>
    simp only [pfx, bits] at h ⊢
    rw [set, if_pos h]

theorem set_leaf_of_not_lt {key : BitVec w} (v u : α)
    (h : ¬ min (agree (leaf key u).pfx k) (leaf key u).bits < (leaf key u).bits) :
    (leaf key u).set k v = leaf k v := by
  have hmin : min (agree key k) w = agree key k := Nat.min_eq_left (agree_le key k)
  simp only [pfx, bits, hmin] at h
  rw [set, if_neg h]

theorem set_branch_of_not_lt (v : α)
    (h : ¬ min (agree (branch q b l r).pfx k) (branch q b l r).bits < (branch q b l r).bits) :
    (branch q b l r).set k v = if k.getMsbD b then branch q b l (r.set k v) else branch q b (l.set k v) r := by
  simp only [pfx, bits] at h
  rw [set, if_neg h]

theorem cut_of_not_lt (h : ¬ min (agree t.pfx k) t.bits < t.bits)
    (hself : cut t.pfx t.bits = t.pfx) : cut k t.bits = t.pfx := by
  have hle : t.bits ≤ agree t.pfx k := by omega
  rw [← hself]
  exact (cut_of_cut_eq (cut_agree t.pfx k) hle).symm

theorem Valid.set (h : t.Valid p n) (v : α) (hk : cut k n = p) : (t.set k v).Valid p n := by
  induction t generalizing p n with
  | leaf key value =>
    by_cases hc : min (agree (leaf key value).pfx k) (leaf key value).bits < (leaf key value).bits
    · rw [set_of_lt v hc]
      exact h.join v hk hc
    · rw [set_leaf_of_not_lt v value hc]
      exact ⟨h.1, hk⟩
  | branch q b l r ihl ihr =>
    by_cases hc : min (agree (branch q b l r).pfx k) (branch q b l r).bits < (branch q b l r).bits
    · rw [set_of_lt v hc]
      exact h.join v hk hc
    · rw [set_branch_of_not_lt v hc]
      have hkq := cut_of_not_lt hc h.cut_bits
      obtain ⟨hn, hb, hp, hq, hl, hr⟩ := h
      have hside := fun side => cut_succ_eq_child (k := k) hb hq side
      cases hbit : k.getMsbD b with
      | false => exact ⟨hn, hb, hp, hq, ihl hl ((hside false).mpr ⟨hkq, hbit⟩), hr⟩
      | true => exact ⟨hn, hb, hp, hq, hl, ihr hr ((hside true).mpr ⟨hkq, hbit⟩)⟩

theorem mem_leaves_join (k : BitVec w) (v : α) (c : Nat) (t : Trie w α) (x : BitVec w × α) :
    x ∈ (t.join k v c).leaves ↔ x = (k, v) ∨ x ∈ t.leaves := by
  unfold Trie.join
  cases k.getMsbD c <;> simp [leaves, or_comm]

theorem Valid.not_mem_of_lt (h : t.Valid p n) (hc : min (agree t.pfx k) t.bits < t.bits) (u : α) : (k, u) ∉ t.leaves := by
  intro hm
  have hcut := h.leaf_cut hm
  have hle := le_agree h.bits_le.2 (a := t.pfx) (b := k) (by rw [h.cut_bits, hcut])
  omega

private theorem Valid.mem_leaves_set_of_lt {p : BitVec w} {n : Nat} {t : Trie w α}
    (h : t.Valid p n) {k : BitVec w} (v : α) (hc : min (agree t.pfx k) t.bits < t.bits)
    (x : BitVec w × α) : x ∈ (t.set k v).leaves ↔ x = (k, v) ∨ x.1 ≠ k ∧ x ∈ t.leaves := by
  rw [set_of_lt v hc, mem_leaves_join]
  constructor
  · rintro (rfl | hm)
    · exact .inl rfl
    · exact .inr ⟨fun he => h.not_mem_of_lt hc x.2 (by rw [← he]; exact hm), hm⟩
  · rintro (rfl | hm)
    · exact .inl rfl
    · exact .inr hm.2

theorem Valid.mem_leaves_set (h : t.Valid p n) (v : α) (hk : cut k n = p) (x : BitVec w × α) :
    x ∈ (t.set k v).leaves ↔ x = (k, v) ∨ x.1 ≠ k ∧ x ∈ t.leaves := by
  induction t generalizing p n with
  | leaf key value =>
    by_cases hc : min (agree (leaf key value).pfx k) (leaf key value).bits < (leaf key value).bits
    · exact h.mem_leaves_set_of_lt v hc x
    · have hkey : k = key := by simpa [bits, pfx, cut_full] using cut_of_not_lt hc h.cut_bits
      subst hkey
      rw [set_leaf_of_not_lt v value hc]
      simp only [leaves, mem_singleton]
      constructor
      · exact .inl
      · rintro (hx | ⟨hne, rfl⟩)
        · exact hx
        · exact absurd rfl hne
  | branch q b l r ihl ihr =>
    by_cases hc : min (agree (branch q b l r).pfx k) (branch q b l r).bits < (branch q b l r).bits
    · exact h.mem_leaves_set_of_lt v hc x
    · rw [set_branch_of_not_lt v hc]
      have hkq := cut_of_not_lt hc h.cut_bits
      obtain ⟨hn, hb, hp, hq, hl, hr⟩ := h
      have hside := fun side => cut_succ_eq_child (k := k) hb hq side
      -- a leaf of the side that is not entered has another bit at `b`
      have hleft : k.getMsbD b = true → x ∈ l.leaves → x.1 ≠ k := by
        rintro hbit hm rfl
        exact absurd ((cut_succ_eq_child hb hq false).mp (hl.leaf_below (v := x.2) hm)).2 (by rw [hbit]; simp)
      have hright : k.getMsbD b = false → x ∈ r.leaves → x.1 ≠ k := by
        rintro hbit hm rfl
        exact absurd ((cut_succ_eq_child hb hq true).mp (hr.leaf_below (v := x.2) hm)).2 (by rw [hbit]; simp)
      cases hbit : k.getMsbD b with
      | false =>
        have ih := ihl hl ((hside false).mpr ⟨hkq, hbit⟩)
        have hother := hright hbit
        rw [if_neg Bool.false_ne_true, leaves, mem_append, ih, leaves, mem_append,
          and_or_left, ← or_assoc, and_iff_right_of_imp hother]
      | true =>
        have ih := ihr hr ((hside true).mpr ⟨hkq, hbit⟩)
        have hother := hleft hbit
        rw [if_pos rfl, leaves, mem_append, ih, leaves, mem_append,
          and_or_left, and_iff_right_of_imp hother, or_left_comm]

theorem erase_branch_none (h : (if k.getMsbD b then r else l).erase k = none) :
    (branch q b l r).erase k = some (if k.getMsbD b then l else r) := by
  cases hb : k.getMsbD b <;> simp_all [Trie.erase]

theorem erase_branch_some {x : Trie w α} (h : (if k.getMsbD b then r else l).erase k = some x) :
    (branch q b l r).erase k = some (branch q b (if k.getMsbD b then l else x) (if k.getMsbD b then x else r)) := by
  cases hb : k.getMsbD b <;> simp_all [Trie.erase]

theorem Valid.erase (h : t.Valid p n) (he : t.erase k = some t') : t'.Valid p n := by
  induction t generalizing p n t' with
  | leaf key value => simp [Trie.erase] at he
  | branch q b l r ihl ihr =>
    obtain ⟨hn, hb, hp, hq, hl, hr⟩ := h
    -- a promoted side is entered where its parent was
    have hpromote : ∀ (side : Bool) {s : Trie w α}, s.Valid (child q b side).1 (b + 1) → s.Valid p n := by
      intro side s hs
      have hmn : n ≤ s.bits := by have := hs.bits_le.1; omega
      have hcut : cut s.pfx n = p := by
        have h1 := (cut_succ_eq_child (k := s.pfx) hb hq side).mp hs.cut_pfx
        rw [← hp, ← h1.1, cut_cut, Nat.min_eq_right hn]
      exact hcut ▸ hs.at_depth hmn
    simp only [Trie.erase] at he
    cases hbit : k.getMsbD b with
    | false =>
      simp only [hbit, Bool.false_eq_true, if_false] at he
      cases hl' : l.erase k with
      | none =>
        simp only [hl', Option.some.injEq] at he
        exact he ▸ hpromote true hr
      | some l' =>
        simp only [hl', Option.some.injEq] at he
        exact he ▸ ⟨hn, hb, hp, hq, ihl hl hl', hr⟩
    | true =>
      simp only [hbit, if_true] at he
      cases hr' : r.erase k with
      | none =>
        simp only [hr', Option.some.injEq] at he
        exact he ▸ hpromote false hl
      | some r' =>
        simp only [hr', Option.some.injEq] at he
        exact he ▸ ⟨hn, hb, hp, hq, hl, ihr hr hr'⟩

theorem Valid.mem_leaves_erase (h : t.Valid p n) (hk : (k, v) ∈ t.leaves) (x : BitVec w × α) :
    (∃ t', t.erase k = some t' ∧ x ∈ t'.leaves) ↔ x.1 ≠ k ∧ x ∈ t.leaves := by
  induction t generalizing p n with
  | leaf key value =>
    simp only [leaves, mem_singleton, Prod.mk.injEq] at hk ⊢
    obtain ⟨rfl, rfl⟩ := hk
    simp only [Trie.erase, reduceCtorEq, false_and, exists_false, false_iff, not_and]
    rintro hne rfl
    exact hne rfl
  | branch q b l r ihl ihr =>
    obtain ⟨hn, hb, hp, hq, hl, hr⟩ := h
    have hleft : ∀ y : BitVec w × α, y ∈ l.leaves → y.1.getMsbD b = false := fun y hy =>
      ((cut_succ_eq_child hb hq false).mp (hl.leaf_below (v := y.2) hy)).2
    have hright : ∀ y : BitVec w × α, y ∈ r.leaves → y.1.getMsbD b = true := fun y hy =>
      ((cut_succ_eq_child hb hq true).mp (hr.leaf_below (v := y.2) hy)).2
    rcases mem_append.mp hk with hk | hk
    · have hbit := hleft _ hk
      have ih := ihl hl hk
      have hother : x ∈ r.leaves → x.1 ≠ k := by
        rintro hm rfl
        simp [hright x hm] at hbit
      cases hl' : l.erase k with
      | none =>
        have hnone : ¬ (x.1 ≠ k ∧ x ∈ l.leaves) := by simpa [hl'] using ih
        simp only [Trie.erase, hbit, Bool.false_eq_true, if_false, hl', Option.some.injEq,
          exists_eq_left', leaves, mem_append]
        rw [and_or_left, or_iff_right hnone, and_iff_right_of_imp hother]
      | some l' =>
        have hsome : x ∈ l'.leaves ↔ x.1 ≠ k ∧ x ∈ l.leaves := by simpa [hl'] using ih
        simp only [Trie.erase, hbit, Bool.false_eq_true, if_false, hl', Option.some.injEq,
          exists_eq_left', leaves, mem_append, hsome]
        rw [and_or_left, and_iff_right_of_imp hother]
    · have hbit := hright _ hk
      have ih := ihr hr hk
      have hother : x ∈ l.leaves → x.1 ≠ k := by
        rintro hm rfl
        simp [hleft x hm] at hbit
      cases hr' : r.erase k with
      | none =>
        have hnone : ¬ (x.1 ≠ k ∧ x ∈ r.leaves) := by simpa [hr'] using ih
        simp only [Trie.erase, hbit, if_true, hr', Option.some.injEq, exists_eq_left', leaves, mem_append]
        rw [and_or_left, or_iff_left hnone, and_iff_right_of_imp hother]
      | some r' =>
        have hsome : x ∈ r'.leaves ↔ x.1 ≠ k ∧ x ∈ r.leaves := by simpa [hr'] using ih
        simp only [Trie.erase, hbit, if_true, hr', Option.some.injEq, exists_eq_left', leaves, mem_append, hsome]
        rw [and_or_left, and_iff_right_of_imp hother]

theorem Valid.inner_below (h : t.Valid p n) (he : e ∈ t.inner) :
    t.bits < e.2 ∧ e.2 ≤ w ∧ cut e.1 t.bits = t.pfx ∧ cut e.1 e.2 = e.1 := by
  induction t generalizing p n with
  | leaf key value => simp [inner] at he
  | branch q b l r ihl ihr =>
    obtain ⟨_, hb, _, hq, hl, hr⟩ := h
    -- the same step for both sides: everything below a child entrance passes through it
    have hstep : ∀ (s : Trie w α) (side : Bool), s.Valid (child q b side).1 (b + 1) →
        (e ∈ s.inner → s.bits < e.2 ∧ e.2 ≤ w ∧ cut e.1 s.bits = s.pfx ∧ cut e.1 e.2 = e.1) →
        e = child q b side ∨ e ∈ s.inner → b < e.2 ∧ e.2 ≤ w ∧ cut e.1 b = q ∧ cut e.1 e.2 = e.1 := by
      intro s side hs ih hmem
      rcases hmem with rfl | hmem
      · have hself := hs.cut_entrance
        exact ⟨Nat.lt_succ_self b, hb, ((cut_succ_eq_child hb hq side).mp hself).1, hself⟩
      · obtain ⟨h1, h2, h3, h4⟩ := ih hmem
        have hsb := hs.bits_le.1
        have hcut : cut e.1 (b + 1) = (child q b side).1 :=
          (cut_of_cut_eq (b := s.pfx) (h3.trans hs.cut_bits.symm) hsb).trans hs.cut_pfx
        exact ⟨by omega, h2, ((cut_succ_eq_child hb hq side).mp hcut).1, h4⟩
    simp only [inner, List.cons_append, mem_cons, mem_append] at he
    rcases he with he | he | he | he
    · exact hstep l false hl (ihl hl) (.inl he)
    · exact hstep l false hl (ihl hl) (.inr he)
    · exact hstep r true hr (ihr hr) (.inl he)
    · exact hstep r true hr (ihr hr) (.inr he)

theorem Valid.entrance_below (h : t.Valid p n) (he : e ∈ (p, n) :: t.inner) :
    n ≤ e.2 ∧ e.2 ≤ w ∧ cut e.1 n = p ∧ cut e.1 e.2 = e.1 := by
  have hbits := h.bits_le
  rcases mem_cons.mp he with rfl | he
  · exact ⟨le_refl n, by omega, h.cut_entrance, h.cut_entrance⟩
  · obtain ⟨h1, h2, h3, h4⟩ := h.inner_below he
    exact ⟨by omega, h2, (cut_of_cut_eq (h3.trans h.cut_bits.symm) hbits.1).trans h.cut_pfx, h4⟩

theorem Valid.not_mem_inner (h : t.Valid p n) : (p, n) ∉ t.inner := by
  intro hm
  have h1 := (h.inner_below hm).1
  have h2 := h.bits_le.1
  exact absurd h1 (by simpa using h2)

theorem Valid.sides_disjoint (h : (branch q b l r).Valid p n) :
    List.Disjoint ((q, b + 1) :: l.inner) ((mark q b, b + 1) :: r.inner) := by
  obtain ⟨_, hb, _, hq, hl, hr⟩ := h
  intro e hel her
  have hleft := (hl.entrance_below hel).2.2.1
  have hright := (hr.entrance_below her).2.2.1
  have h0 := ((cut_succ_eq_child (k := e.1) hb hq false).mp hleft).2
  have h1 := ((cut_succ_eq_child (k := e.1) hb hq true).mp hright).2
  rw [h0] at h1
  exact Bool.false_ne_true h1

theorem Valid.entrances_nodup (h : t.Valid p n) : ((p, n) :: t.inner).Nodup := by
  induction t generalizing p n with
  | leaf key value => simp [inner]
  | branch q b l r ihl ihr =>
    refine List.nodup_cons.mpr ⟨h.not_mem_inner, ?_⟩
    have hdisj := h.sides_disjoint
    obtain ⟨_, _, _, _, hl, hr⟩ := h
    exact (ihl hl).append (ihr hr) hdisj

theorem inner_length (t : Trie w α) : t.inner.length + 2 = 2 * t.leaves.length := by
  induction t with
  | leaf key value => rfl
  | branch q b l r ihl ihr =>
    simp only [inner, leaves, List.length_append, List.length_cons]
    omega

theorem Valid.entrance_of_leaf (h : t.Valid p n) (he : e ∈ (p, n) :: t.inner) : ∃ x ∈ t.leaves, cut x.1 e.2 = e.1 := by
  induction t generalizing p n with
  | leaf key value =>
    simp only [inner, mem_singleton] at he
    subst he
    exact ⟨(key, value), by simp [leaves], h.2⟩
  | branch q b l r ihl ihr =>
    have htop := h
    obtain ⟨_, _, _, _, hl, hr⟩ := h
    rcases mem_cons.mp he with rfl | he
    · obtain ⟨x, hx⟩ := List.exists_mem_of_ne_nil _ (leaves_ne_nil (branch q b l r))
      exact ⟨x, hx, htop.leaf_below hx⟩
    · rcases mem_append.mp he with he | he
      · obtain ⟨x, hx, hc⟩ := ihl hl he
        exact ⟨x, by simp [leaves, hx], hc⟩
      · obtain ⟨x, hx, hc⟩ := ihr hr he
        exact ⟨x, by simp [leaves, hx], hc⟩

theorem Valid.exists_side (h : (branch q b l r).Valid p n) (side : Bool) :
    ∃ x ∈ (branch q b l r).leaves, x.1.getMsbD b = side := by
  obtain ⟨x, hx⟩ := List.exists_mem_of_ne_nil _ (leaves_ne_nil (if side then r else l))
  refine ⟨x, ?_, ((cut_succ_eq_child h.2.1 h.2.2.2.1 side).mp ((h.side side).leaf_below hx)).2⟩
  rw [leaves, mem_append]
  split at hx
  exacts [.inr hx, .inl hx]

theorem Valid.leaf_shared {i : Nat} (h : t.Valid p n)
    (hi : i < t.bits) (hx : x ∈ t.leaves) : x.1.getMsbD i = t.pfx.getMsbD i := by
  rw [← h.leaf_cut hx, getMsbD_cut]
  simp [hi]

theorem Valid.bits_le_branch {p' : BitVec w} {n' : Nat} (h : (branch q b l r).Valid p n) (ht : t.Valid p' n')
    (hsub : ∀ x ∈ (branch q b l r).leaves, x ∈ t.leaves) : t.bits ≤ b := by
  by_contra hlt
  obtain ⟨x, hx, hx0⟩ := h.exists_side false
  obtain ⟨y, hy, hy1⟩ := h.exists_side true
  have hxt := ht.leaf_shared (i := b) (by omega) (hsub x hx)
  have hyt := ht.leaf_shared (i := b) (by omega) (hsub y hy)
  rw [hx0] at hxt
  rw [hy1, ← hxt] at hyt
  exact Bool.false_ne_true hyt.symm

theorem Valid.mem_side_iff (h : (branch q b l r).Valid p n) (side : Bool) (x : BitVec w × α) :
    x ∈ (if side then r else l).leaves ↔ x ∈ (branch q b l r).leaves ∧ x.1.getMsbD b = side := by
  constructor
  · intro hx
    refine ⟨?_, ((cut_succ_eq_child h.2.1 h.2.2.2.1 side).mp ((h.side side).leaf_below hx)).2⟩
    rw [leaves, mem_append]
    split at hx
    exacts [.inr hx, .inl hx]
  · rintro ⟨hx, rfl⟩
    exact mem_side h hx

/-- Two trees below one entrance with the same leaves are equal. -/
theorem Valid.unique (h : t.Valid p n) (h' : t'.Valid p n) (heq : ∀ x, x ∈ t.leaves ↔ x ∈ t'.leaves) : t = t' := by
  induction t generalizing p n t' with
  | leaf key value =>
    cases t' with
    | leaf key' value' =>
      have := (heq (key, value)).mp (by simp [leaves])
      simp only [leaves, mem_singleton, Prod.mk.injEq] at this
      rw [this.1, this.2]
    | branch q' b' l' r' =>
      have hle := h'.bits_le_branch h fun x hx => (heq x).mpr hx
      exact absurd hle (Nat.not_le.mpr h'.2.1)
  | branch q b l r ihl ihr =>
    cases t' with
    | leaf key' value' =>
      have hle := h.bits_le_branch h' fun x hx => (heq x).mp hx
      exact absurd hle (Nat.not_le.mpr h.2.1)
    | branch q' b' l' r' =>
      have hbb : b = b' := Nat.le_antisymm (h'.bits_le_branch h fun x hx => (heq x).mpr hx)
        (h.bits_le_branch h' fun x hx => (heq x).mp hx)
      subst hbb
      obtain ⟨x, hx, _⟩ := h.exists_side false
      have hqq : q = q' := (h.leaf_cut hx).symm.trans (h'.leaf_cut ((heq x).mp hx))
      subst hqq
      have hside : ∀ (side : Bool) y, y ∈ (if side then r else l).leaves ↔
          y ∈ (if side then r' else l').leaves := fun side y => by
        rw [h.mem_side_iff, h'.mem_side_iff, heq]
      have hl : l = l' := ihl (h.side false) (h'.side false) (hside false)
      have hr : r = r' := ihr (h.side true) (h'.side true) (hside true)
      rw [hl, hr]

end Trie
end Radix
