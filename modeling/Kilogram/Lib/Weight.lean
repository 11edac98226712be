import Kilogram.Lib.Maps

/-!
# Sums over finite maps

The weight of a map is the sum of a measure over its entries.
-/

namespace Maps
open Std
open TreeMap (mem_toList_iff_getElem?_eq_some)
variable {κ β : Type} [Ord κ] [TransOrd κ] [LawfulEqOrd κ]

def weight (f : κ → β → Nat) (m : TreeMap κ β) : Nat := (m.toList.map fun e => f e.1 e.2).sum
theorem nodup_toList (m : TreeMap κ β) : m.toList.Nodup := (nodup_keys m).of_map

variable {m : TreeMap κ β} {a : κ} {f : κ → β → Nat}
variable {m' : TreeMap κ β} {y : β} {g : κ → β → Nat}

theorem weight_of_get_eq (f : κ → β → Nat) (h : ∀ k : κ, m[k]? = m'[k]?) : weight f m = weight f m' := by
  have hp : m.toList.Perm m'.toList := by
    apply (List.perm_ext_iff_of_nodup (nodup_toList _) (nodup_toList _)).mpr
    rintro ⟨k, y⟩
    rw [mem_toList_iff_getElem?_eq_some, mem_toList_iff_getElem?_eq_some, h k]
  exact (hp.map _).sum_eq

private theorem weight_of_one_more (f : κ → β → Nat) {m m' : TreeMap κ β} {a : κ} {x : β}
    (ha : m[a]? = none) (h : ∀ k y, m'[k]? = some y ↔ (k = a ∧ y = x) ∨ m[k]? = some y) :
    weight f m' = weight f m + f a x := by
  have hfresh : (a, x) ∉ m.toList := by
    rw [mem_toList_iff_getElem?_eq_some, ha]
    simp
  have hp : m'.toList.Perm ((a, x) :: m.toList) := by
    apply (List.perm_ext_iff_of_nodup (nodup_toList m') (List.nodup_cons.mpr
      ⟨hfresh, nodup_toList m⟩)).mpr
    rintro ⟨k, y⟩
    rw [mem_toList_iff_getElem?_eq_some, List.mem_cons, mem_toList_iff_getElem?_eq_some, h k y, Prod.mk.injEq]
  unfold weight
  rw [(hp.map _).sum_eq, List.map_cons, List.sum_cons, Nat.add_comm]

theorem weight_insert_of_none [DecidableEq κ] (f : κ → β → Nat) (x : β)
    (ha : m[a]? = none) : weight f (m.insert a x) = weight f m + f a x := by
  refine weight_of_one_more f ha fun k y => ?_
  rw [get_insert]
  split
  · next h => simp [← h, ha, eq_comm]
  · next h => simp [Ne.symm h]

theorem weight_erase_of_some [DecidableEq κ] (f : κ → β → Nat)
    (ha : m[a]? = some y) : weight f (m.erase a) + f a y = weight f m := by
  symm
  refine weight_of_one_more f (by simp) fun k z => ?_
  rw [get_erase]
  split
  · next h => simp [← h, ha, eq_comm]
  · next h => simp [Ne.symm h]

theorem weight_insert_of_some [DecidableEq κ] (f : κ → β → Nat) (x : β) (ha : m[a]? = some y) :
    weight f (m.insert a x) + f a y = weight f m + f a x := by
  have hsame : weight f (m.insert a x) = weight f ((m.erase a).insert a x) := by
    refine weight_of_get_eq f fun k => ?_
    rw [get_insert, get_insert, get_erase]
    split
    · rfl
    · rfl
  rw [hsame, weight_insert_of_none f x (by simp), ← weight_erase_of_some f ha]
  omega

omit [TransOrd κ] [LawfulEqOrd κ] in
@[simp] theorem weight_empty (f : κ → β → Nat) : weight f (∅ : TreeMap κ β) = 0 := by
  have hnil : (∅ : TreeMap κ β).toList = [] := rfl
  rw [weight, hnil]
  rfl

omit [TransOrd κ] [LawfulEqOrd κ] in
@[simp] theorem weight_zero (m : TreeMap κ β) : weight (fun _ _ => 0) m = 0 := by
  unfold weight
  rw [List.map_const', List.sum_replicate, smul_zero]

theorem le_weight (f : κ → β → Nat) (ha : m[a]? = some y) : f a y ≤ weight f m := by
  apply List.single_le_sum (fun n _ => Nat.zero_le n)
  exact List.mem_map.mpr ⟨(a, y), mem_toList_iff_getElem?_eq_some.mpr ha, rfl⟩

theorem weight_congr (h : ∀ k y, m[k]? = some y → f k y = g k y) : weight f m = weight g m := by
  unfold weight
  congr 1
  apply List.map_congr_left
  rintro ⟨k, y⟩ he
  exact h k y (mem_toList_iff_getElem?_eq_some.mp he)

theorem weight_insert_of_zero [DecidableEq κ] {x : β} (hx : f a x = 0) (hold : ∀ y, m[a]? = some y → f a y = 0) :
    weight f (m.insert a x) = weight f m := by
  rcases ha : m[a]? with _ | y
  · rw [weight_insert_of_none f x ha, hx, Nat.add_zero]
  · have := weight_insert_of_some f x ha
    have := hold y ha
    omega

theorem weight_erase_of_zero [DecidableEq κ]
    (hold : ∀ y, m[a]? = some y → f a y = 0) : weight f (m.erase a) = weight f m := by
  rcases ha : m[a]? with _ | y
  · refine weight_of_get_eq f fun k => ?_
    rw [get_erase]
    split
    · next h => rw [← h, ha]
    · rfl
  · have := weight_erase_of_some f ha
    have := hold y ha
    omega

theorem weight_of_support (h : ∀ k y, f k y ≠ 0 → (m[k]? = some y ↔ m'[k]? = some y)) : weight f m = weight f m' := by
  have hsum : ∀ l : List (κ × β),
      (l.map fun e => f e.1 e.2).sum = ((l.filter fun e => f e.1 e.2 ≠ 0).map fun e => f e.1 e.2).sum := by
    intro l
    induction l with
    | nil => rfl
    | cons e l ih =>
      by_cases he : f e.1 e.2 = 0
      · simp [he, ih]
      · simp [he, ih]
  have hp : (m.toList.filter fun e => f e.1 e.2 ≠ 0).Perm (m'.toList.filter fun e => f e.1 e.2 ≠ 0) := by
    apply (List.perm_ext_iff_of_nodup ((nodup_toList m).filter _) ((nodup_toList m').filter _)).mpr
    rintro ⟨k, y⟩
    simp only [List.mem_filter, mem_toList_iff_getElem?_eq_some, decide_eq_true_eq]
    constructor
    · rintro ⟨hk, hf⟩
      exact ⟨(h k y hf).mp hk, hf⟩
    · rintro ⟨hk, hf⟩
      exact ⟨(h k y hf).mpr hk, hf⟩
  unfold weight
  rw [hsum, hsum m'.toList]
  exact (hp.map _).sum_eq

omit [TransOrd κ] [LawfulEqOrd κ] in
theorem weight_one (m : TreeMap κ β) : weight (fun _ _ => 1) m = m.size := by
  unfold weight
  rw [List.map_const', List.sum_replicate, smul_eq_mul, mul_one, TreeMap.length_toList]

theorem weight_change_at [DecidableEq κ] (m : TreeMap κ β) (a : κ) (h : ∀ k y, k ≠ a → f k y = g k y) :
    weight f m + (m[a]?).elim 0 (g a) = weight g m + (m[a]?).elim 0 (f a) := by
  rcases ha : m[a]? with _ | x
  · have hsame : weight f m = weight g m := weight_congr fun k y hk => h k y (by
      rintro rfl
      rw [ha] at hk
      exact absurd hk (by simp))
    rw [hsame]
    rfl
  · have hrest : weight f (m.erase a) = weight g (m.erase a) := weight_congr fun k y hk => h k y (by
      rintro rfl
      rw [get_erase, if_pos rfl] at hk
      exact absurd hk (by simp))
    have hf := weight_erase_of_some f ha
    have hg := weight_erase_of_some g ha
    simp only [Option.elim_some]
    omega

theorem weight_insert [DecidableEq κ] (f : κ → β → Nat) (m : TreeMap κ β) (a : κ) (x : β) :
    weight f (m.insert a x) + (m[a]?).elim 0 (f a) = weight f m + f a x := by
  rcases ha : m[a]? with _ | y
  · exact weight_insert_of_none f x ha
  · exact weight_insert_of_some f x ha

theorem weight_erase [DecidableEq κ] (f : κ → β → Nat) (m : TreeMap κ β) (a : κ) :
    weight f (m.erase a) + (m[a]?).elim 0 (f a) = weight f m := by
  rcases ha : m[a]? with _ | y
  · rw [weight_erase_of_zero fun y hy => absurd (ha.symm.trans hy) (by simp)]
    rfl
  · exact weight_erase_of_some f ha

omit [TransOrd κ] [LawfulEqOrd κ] in
theorem weight_add (f g : κ → β → Nat) (m : TreeMap κ β) :
    weight (fun k y => f k y + g k y) m = weight f m + weight g m := by
  unfold weight
  induction m.toList with
  | nil => rfl
  | cons e l ih =>
    simp only [List.map_cons, List.sum_cons, ih]
    omega

section
variable {κ' : Type} [Ord κ'] [TransOrd κ'] [LawfulEqOrd κ'] [DecidableEq κ] [DecidableEq κ']

private theorem sum_le_of_charged {f : κ → β → Nat} {g : κ' → Nat → Nat} (e : κ' → κ)
    (l : List (κ × β)) (hl : (l.map Prod.fst).Nodup) (m : TreeMap κ β) (n : TreeMap κ' Nat)
    (h : ∀ p x, (p, x) ∈ l → f p x ≤ (m[p]?).elim 0 (f p) ∨
      ∃ k y, n[k]? = some y ∧ e k = p ∧ f p x ≤ (m[p]?).elim 0 (f p) + g k y) :
    (l.map fun e => f e.1 e.2).sum ≤ weight f m + weight g n := by
  induction l generalizing m n with
  | nil => exact Nat.zero_le _
  | cons entry l ih =>
    obtain ⟨p, x⟩ := entry
    rw [List.map_cons, List.nodup_cons] at hl
    -- the other entries keep their old value when `p` is taken out of the old map
    have hother : ∀ q y, (q, y) ∈ l → q ≠ p ∧ (m.erase p)[q]? = m[q]? := by
      intro q y hq
      have hne : q ≠ p := by
        rintro rfl
        exact hl.1 (List.mem_map.mpr ⟨(q, y), hq, rfl⟩)
      exact ⟨hne, get_erase_of_ne m hne⟩
    have hp := weight_erase f m p
    rw [List.map_cons, List.sum_cons]
    rcases h p x List.mem_cons_self with hle | ⟨k, y, hk, hek, hle⟩
    · have := ih hl.2 (m.erase p) n fun q y hq => by
        rw [(hother q y hq).2]
        exact h q y (.tail _ hq)
      dsimp only
      omega
    · have hn := weight_erase_of_some g hk
      have := ih hl.2 (m.erase p) (n.erase k) fun q z hq => by
        obtain ⟨hne, hget⟩ := hother q z hq
        rw [hget]
        rcases h q z (.tail _ hq) with hle | ⟨j, v, hj, hej, hle⟩
        · exact Or.inl hle
        · refine Or.inr ⟨j, v, ?_, hej, hle⟩
          rw [get_erase_of_ne]
          · exact hj
          · rintro rfl
            exact hne (hej.symm.trans hek)
      dsimp only
      omega

variable {m m' : TreeMap κ β}

/-- If every entry of the new map weighs no more than before, or no more than before and what a
charge of its own pays for, then so does the whole map. -/
theorem weight_le_of_charged {f : κ → β → Nat} {g : κ' → Nat → Nat} (e : κ' → κ) {n : TreeMap κ' Nat}
    (h : ∀ p x, m'[p]? = some x → f p x ≤ (m[p]?).elim 0 (f p) ∨
      ∃ k y, n[k]? = some y ∧ e k = p ∧ f p x ≤ (m[p]?).elim 0 (f p) + g k y) :
    weight f m' ≤ weight f m + weight g n := by
  apply sum_le_of_charged e m'.toList (nodup_keys m') m n
  intro p x hpx
  exact h p x (mem_toList_iff_getElem?_eq_some.mp hpx)

omit [Ord κ'] [TransOrd κ'] [LawfulEqOrd κ'] [DecidableEq κ'] in
theorem weight_le_of_sub (f : κ → β → Nat)
    (h : ∀ (k : κ) (y : β), m'[k]? = some y → m[k]? = some y) : weight f m' ≤ weight f m := by
  have hle := weight_le_of_charged (m := m) (n := (∅ : TreeMap κ Nat)) (f := f) (g := fun _ _ => 0) id
    fun p x hp => Or.inl (by rw [h p x hp, Option.elim_some])
  rwa [weight_empty, Nat.add_zero] at hle

end
end Maps
