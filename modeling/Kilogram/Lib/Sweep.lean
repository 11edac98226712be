import Kilogram.Lib.Maps
import Kilogram.Lib.Except

/-!
# Sweeping a table

A pass over a table picks the keys whose entries have expired, and fails where an entry cannot be
judged.
-/

namespace Maps
open Std
variable {κ β ε : Type}

/-- The keys of the entries that have expired, in the order of the list. -/
def pick (expired : κ → β → Except ε Bool) : List (κ × β) → Except ε (List κ)
  | [] => return []
  | (k, b) :: rest => do
    let gone ← expired k b
    let keys ← pick expired rest
    return if gone then k :: keys else keys

/-- Whether an entry has expired; the pass stops at the first that has. -/
def anyExpired (expired : κ → β → Except ε Bool) : List (κ × β) → Except ε Bool
  | [] => return false
  | (k, b) :: rest => do
    if ← expired k b then
      return true
    else
      anyExpired expired rest

variable {expired : κ → β → Except ε Bool} {l : List (κ × β)} {keys : List κ}

theorem mem_pick (h : pick expired l = .ok keys) (k : κ) : k ∈ keys ↔ ∃ b, (k, b) ∈ l ∧ expired k b = .ok true := by
  induction l generalizing keys with
  | nil =>
    obtain rfl := Except.pure_eq_ok.mp h
    simp
  | cons entry rest ih =>
    obtain ⟨j, c⟩ := entry
    simp only [pick, Except.ok_iff] at h
    obtain ⟨gone, hgone, keys', hkeys', rfl⟩ := h
    have hrest := ih hkeys'
    constructor
    · intro hk
      have hcases : (gone = true ∧ k = j) ∨ k ∈ keys' := by
        split at hk
        · next hg => exact (List.mem_cons.mp hk).imp_left fun hkj => ⟨hg, hkj⟩
        · exact Or.inr hk
      rcases hcases with ⟨rfl, rfl⟩ | hk
      · exact ⟨c, .head _, hgone⟩
      · obtain ⟨b, hb, he⟩ := hrest.mp hk
        exact ⟨b, .tail _ hb, he⟩
    · rintro ⟨b, hb, he⟩
      rcases List.mem_cons.mp hb with heq | hb
      · cases heq
        rw [Except.ok.inj (hgone.symm.trans he), if_pos rfl]
        exact .head _
      · have hk := hrest.mpr ⟨b, hb, he⟩
        split
        · exact .tail _ hk
        · exact hk

theorem exists_of_pick
    (h : pick expired l = .ok keys) {k : κ} {b : β} (hb : (k, b) ∈ l) : ∃ e, expired k b = .ok e := by
  induction l generalizing keys with
  | nil => simp at hb
  | cons entry rest ih =>
    obtain ⟨j, c⟩ := entry
    simp only [pick, Except.bind_eq_ok] at h
    obtain ⟨gone, hgone, keys', hkeys', _⟩ := h
    rcases List.mem_cons.mp hb with heq | hb
    · cases heq
      exact ⟨gone, hgone⟩
    · exact ih hkeys' hb

theorem pick_isOk (h : ∀ k b, (k, b) ∈ l → ∃ e, expired k b = .ok e) : ∃ keys, pick expired l = .ok keys := by
  induction l with
  | nil => exact ⟨[], rfl⟩
  | cons entry rest ih =>
    obtain ⟨k, b⟩ := entry
    obtain ⟨gone, hgone⟩ := h k b (.head _)
    obtain ⟨keys, hkeys⟩ := ih fun k b hb => h k b (.tail _ hb)
    refine ⟨if gone then k :: keys else keys, ?_⟩
    rw [pick, Except.bind_of_ok hgone, Except.bind_of_ok hkeys]
    rfl

theorem anyExpired_isOk
    (h : ∀ k b, (k, b) ∈ l → ∃ e, expired k b = .ok e) : ∃ found, anyExpired expired l = .ok found := by
  induction l with
  | nil => exact ⟨false, rfl⟩
  | cons entry rest ih =>
    obtain ⟨k, b⟩ := entry
    obtain ⟨gone, hgone⟩ := h k b (.head _)
    obtain ⟨found, hfound⟩ := ih fun k b hb => h k b (.tail _ hb)
    rw [anyExpired, Except.bind_of_ok hgone]
    cases gone with
    | true => exact ⟨true, rfl⟩
    | false => exact ⟨found, hfound⟩

variable [Ord κ]

def sweep (expired : κ → β → Except ε Bool) (m : TreeMap κ β) : Except ε (List κ) := pick expired m.toList
def removeAll (m : TreeMap κ β) (keys : List κ) : TreeMap κ β := keys.foldl (fun m k => m.erase k) m

variable [TransOrd κ] [LawfulEqOrd κ]

theorem mem_sweep {m : TreeMap κ β} (h : sweep expired m = .ok keys) (k : κ) :
    k ∈ keys ↔ ∃ b, m[k]? = some b ∧ expired k b = .ok true := by
  rw [mem_pick h]
  simp only [TreeMap.mem_toList_iff_getElem?_eq_some]

theorem sweep_isOk {m : TreeMap κ β} (h : ∀ (k : κ) (b : β), m[k]? = some b → ∃ e, expired k b = .ok e) :
    ∃ keys, sweep expired m = .ok keys :=
  pick_isOk fun k b hb => h k b (TreeMap.mem_toList_iff_getElem?_eq_some.mp hb)

variable [DecidableEq κ]

theorem get_removeAll (m : TreeMap κ β) (keys : List κ) (k : κ) :
    (removeAll m keys)[k]? = if k ∈ keys then none else m[k]? := by
  induction keys generalizing m with
  | nil => rfl
  | cons j keys ih =>
    have hstep : removeAll m (j :: keys) = removeAll (m.erase j) keys := rfl
    rw [hstep, ih, get_erase]
    by_cases hk : k ∈ keys
    · rw [if_pos hk, if_pos (.tail _ hk)]
    · rw [if_neg hk]
      by_cases hj : j = k
      · rw [if_pos hj, if_pos (hj ▸ .head _)]
      · have hnot : k ∉ j :: keys := by
          rintro (_ | ⟨_, hmem⟩)
          · exact hj rfl
          · exact hk hmem
        rw [if_neg hj, if_neg hnot]

theorem get_swept {m : TreeMap κ β} (h : sweep expired m = .ok keys) (k : κ) (b : β) :
    (removeAll m keys)[k]? = some b ↔ m[k]? = some b ∧ expired k b = .ok false := by
  rw [get_removeAll]
  constructor
  · intro hb
    split_ifs at hb with hk
    obtain ⟨gone, hgone⟩ := exists_of_pick h (TreeMap.mem_toList_iff_getElem?_eq_some.mpr hb)
    cases gone with
    | true => exact absurd ((mem_sweep h k).mpr ⟨b, hb, hgone⟩) hk
    | false => exact ⟨hb, hgone⟩
  · rintro ⟨hb, hlive⟩
    rw [if_neg, hb]
    intro hk
    obtain ⟨b', hb', hgone⟩ := (mem_sweep h k).mp hk
    rw [Option.some.inj (hb'.symm.trans hb), hlive] at hgone
    exact absurd (Except.ok.inj hgone) Bool.false_ne_true

end Maps
