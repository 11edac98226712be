import Mathlib.Tactic

/-!
# Ordered finite maps

Lookups in a map after one update, where the comparison of keys is equality, and lookups after a
list of insertions and removals.
-/

namespace Maps
open Std

theorem lawfulEqCmp_compareOn {α : Type} {f : α → Nat} (hf : Function.Injective f) : LawfulEqCmp (compareOn f) where
  compare_self {a} := by simp [compareOn]
  eq_of_compare h := hf (@LawfulEqCmp.eq_of_compare _ compare _ _ _ h)

variable {κ β : Type} [Ord κ] [TransOrd κ] [LawfulEqOrd κ] [DecidableEq κ]

theorem get_insert (m : TreeMap κ β) (a b : κ) (x : β) : (m.insert a x)[b]? = if a = b then some x else m[b]? := by
  simp only [TreeMap.getElem?_insert, LawfulEqCmp.compare_eq_iff_eq]

variable {a b : κ} {y : β} {m : TreeMap κ β} {Q : κ → β → Prop}

theorem get_insert_of_ne (m : TreeMap κ β) (x : β) (h : b ≠ a) : (m.insert a x)[b]? = m[b]? := by
  rw [get_insert, if_neg (Ne.symm h)]

theorem get_erase (m : TreeMap κ β) (a b : κ) : (m.erase a)[b]? = if a = b then none else m[b]? := by
  simp only [TreeMap.getElem?_erase, LawfulEqCmp.compare_eq_iff_eq]

theorem get_erase_of_ne (m : TreeMap κ β) (h : b ≠ a) : (m.erase a)[b]? = m[b]? := by
  rw [get_erase, if_neg (Ne.symm h)]

theorem get_insert_self (m : TreeMap κ β) (a : κ) (x : β) : (m.insert a x)[a]? = some x :=
  (get_insert m a a x).trans (if_pos rfl)

theorem get_insert_of_free (m : TreeMap κ β) (x : β) (ha : m[a]? = none)
    (hb : m[b]? = some y) : (m.insert a x)[b]? = some y := by
  rw [get_insert_of_ne, hb]
  rintro rfl
  cases ha.symm.trans hb

theorem forall_insert {x : β} (h : ∀ (k : κ) (r : β), m[k]? = some r → Q k r) (hx : Q a x) (k : κ) (r : β)
    (hr : (m.insert a x)[k]? = some r) : Q k r := by
  rw [get_insert] at hr
  split_ifs at hr with hk
  · exact hk ▸ Option.some.inj hr ▸ hx
  · exact h k r hr

theorem forall_erase (h : ∀ (k : κ) (r : β), m[k]? = some r → Q k r) (k : κ) (r : β)
    (hr : (m.erase a)[k]? = some r) : Q k r := by
  rw [get_erase] at hr
  split_ifs at hr
  exact h k r hr

omit [LawfulEqOrd κ] [DecidableEq κ] in
theorem mem_iff (m : TreeMap κ β) (a : κ) : a ∈ m ↔ ∃ x, m[a]? = some x := by
  rw [TreeMap.mem_iff_isSome_getElem?, Option.isSome_iff_exists]

omit [LawfulEqOrd κ] [DecidableEq κ] in
theorem not_mem_iff (m : TreeMap κ β) (a : κ) : a ∉ m ↔ m[a]? = none := by
  rw [TreeMap.mem_iff_isSome_getElem?, Option.not_isSome_iff_eq_none]

omit [LawfulEqOrd κ] [DecidableEq κ] in
theorem size_insert_of_get (m : TreeMap κ β) (x : β) (h : m[a]? = some y) : (m.insert a x).size = m.size := by
  rw [TreeMap.size_insert, if_pos (TreeMap.mem_iff_contains.mp ((mem_iff m a).mpr ⟨y, h⟩))]

omit [LawfulEqOrd κ] [DecidableEq κ] in
theorem size_insert_of_none (m : TreeMap κ β) (x : β) (h : m[a]? = none) : (m.insert a x).size = m.size + 1 := by
  rw [TreeMap.size_insert, if_neg]
  rwa [← TreeMap.mem_iff_contains, not_mem_iff]

omit [LawfulEqOrd κ] [DecidableEq κ] in
theorem size_erase_of_get (m : TreeMap κ β) (h : m[a]? = some y) : (m.erase a).size + 1 = m.size := by
  have hmem : a ∈ m := (mem_iff m a).mpr ⟨y, h⟩
  have hpos : m.size ≠ 0 := by
    intro h0
    have hempty : m.isEmpty = true := by rw [TreeMap.isEmpty_eq_size_eq_zero]; simp [h0]
    exact TreeMap.not_mem_of_isEmpty hempty hmem
  rw [TreeMap.size_erase, if_pos (TreeMap.mem_iff_contains.mp hmem)]
  omega

def write (m : TreeMap κ β) (change : κ × Option β) : TreeMap κ β :=
  match change.2 with
  | some x => m.insert change.1 x
  | none => m.erase change.1

theorem get_write (m : TreeMap κ β) (change : κ × Option β) (b : κ) :
    (write m change)[b]? = if change.1 = b then change.2 else m[b]? := by
  obtain ⟨a, x⟩ := change
  cases x with
  | none => exact get_erase m a b
  | some x => exact get_insert m a b x

theorem get_writes_of_not_mem (changes : List (κ × Option β)) (m : TreeMap κ β)
    (h : ∀ x, (b, x) ∉ changes) : (changes.foldl write m)[b]? = m[b]? := by
  induction changes generalizing m with
  | nil => rfl
  | cons c cs ih =>
    have hne : c.1 ≠ b := by
      rintro rfl
      exact h c.2 (.head _ ..)
    rw [List.foldl_cons, ih _ fun x hx => h x (.tail _ hx), get_write, if_neg hne]

theorem get_writes_of_mem (changes : List (κ × Option β)) (m : TreeMap κ β) {x : Option β}
    (hnodup : (changes.map Prod.fst).Nodup) (h : (b, x) ∈ changes) :
    (changes.foldl write m)[b]? = x := by
  induction changes generalizing m with
  | nil => exact absurd h (List.not_mem_nil)
  | cons c cs ih =>
    rw [List.map_cons, List.nodup_cons] at hnodup
    rw [List.foldl_cons]
    rcases List.mem_cons.mp h with rfl | h
    · rw [get_writes_of_not_mem cs _ fun y hy =>
        hnodup.1 (List.mem_map.mpr ⟨(b, y), hy, rfl⟩), get_write, if_pos rfl]
    · exact ih _ hnodup.2 h

omit [DecidableEq κ] in
theorem nodup_keys (m : TreeMap κ β) : (m.toList.map Prod.fst).Nodup := by
  rw [TreeMap.map_fst_toList_eq_keys]
  refine (TreeMap.distinct_keys (t := m)).imp ?_
  intro a b h
  exact fun hab => h (LawfulEqCmp.compare_eq_iff_eq.mpr hab)

omit [DecidableEq κ] in
theorem eq_of_ordered {α : Type} {f : α → κ} {l l' : List α} (hl : l.Pairwise fun a b => compare (f a) (f b) = .lt)
    (hl' : l'.Pairwise fun a b => compare (f a) (f b) = .lt) (h : ∀ a, a ∈ l ↔ a ∈ l') : l = l' := by
  have hirrefl : Std.Irrefl fun a b => compare (f a) (f b) = .lt :=
    ⟨fun a ha => absurd ((ReflCmp.compare_self (a := f a)).symm.trans ha) (by simp)⟩
  have hantisymm : Std.Antisymm fun a b => compare (f a) (f b) = .lt :=
    ⟨fun a b hab hba => absurd hba (OrientedCmp.not_lt_of_lt hab)⟩
  exact hl.eq_of_mem_iff hl' h

theorem get_ofList {l : List (κ × β)} (h : (l.map Prod.fst).Nodup) (a : κ) (x : β) :
    (TreeMap.ofList l)[a]? = some x ↔ (a, x) ∈ l := by
  have hpair : l.Pairwise fun a b => ¬ compare a.1 b.1 = .eq := by
    refine (List.pairwise_map.mp h).imp ?_
    exact fun hne heq => hne (LawfulEqCmp.eq_of_compare heq)
  constructor
  · intro hx
    have hmem : a ∈ TreeMap.ofList l := (mem_iff _ a).mpr ⟨x, hx⟩
    rw [TreeMap.mem_ofList, List.contains_iff_mem, List.mem_map] at hmem
    obtain ⟨⟨b, y⟩, hb, rfl⟩ := hmem
    have := TreeMap.getElem?_ofList_of_mem ReflCmp.compare_self hpair hb
    rwa [Option.some.inj (hx.symm.trans this)]
  · exact TreeMap.getElem?_ofList_of_mem ReflCmp.compare_self hpair

/-- Publishing a map of changes: a changed key has its new value, any other keeps its own. -/
theorem get_publish (changes : TreeMap κ (Option β)) (m : TreeMap κ β) (b : κ) :
    (changes.toList.foldl write m)[b]? = match changes[b]? with
      | some x => x
      | none => m[b]? := by
  cases hb : changes[b]? with
  | some x =>
    exact get_writes_of_mem _ _ (nodup_keys changes) (TreeMap.mem_toList_iff_getElem?_eq_some.mpr hb)
  | none =>
    refine get_writes_of_not_mem _ _ fun x hx => ?_
    rw [TreeMap.mem_toList_iff_getElem?_eq_some, hb] at hx
    simp at hx

end Maps
