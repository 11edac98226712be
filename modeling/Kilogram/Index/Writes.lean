import Kilogram.Index.Overlay

/-!
# Writing through an overlay

One planned change touches one address.
-/

namespace Kilogram.Index.Tree
open Radix
variable [P : Primitives] {K : Set Id} {tr tr' tr'' : Tree}

/-- The maps agree away from one address. -/
structure WritesAt (tr tr' : Tree) (a : Id) : Prop where
  table : tr'.table = tr.table
  crypto : tr'.crypto = tr.crypto
  layout : tr'.layout = tr.layout
  changed : ∀ a', a' ≠ a → tr'.changed[a']? = tr.changed[a']?
  decoded : ∀ a', a' ≠ a → tr'.decoded[a']? = tr.decoded[a']?
  pendingScopes : ∀ a', a' ≠ a → tr'.pendingScopes[a']? = tr.pendingScopes[a']?
  reused : tr'.reused = ∅
  plan : tr'.planBytes ≤ maxPlan
  cache : tr'.decoded.size * tr'.layout.decodedEntry ≤ maxPlan

variable {a : Id} {scope : UInt8}

omit P in
theorem change_eq_ok {value : Option Bytes} (h : tr.change a value = .ok tr') : ∃ planBytes ≤ maxPlan, tr' = { tr with
      readReuse := false, reused := ∅, reuseFifo := []
      pendingScopes := tr.pendingScopes.erase a
      decoded := tr.decoded.erase a
      planBytes := planBytes
      changed := tr.changed.insert a value } := by
  simp only [change, Except.ok_iff] at h
  obtain ⟨_, _, planBytes, _, _, hle, rfl⟩ := h
  exact ⟨planBytes, Nat.not_lt.mp hle, rfl⟩

variable {a' : Id} {s : Summary} {R : Id × Nat → Prop} {e : Id × Nat}

theorem WritesAt.view (h : WritesAt tr tr' a) (hne : a' ≠ a) (scope : UInt8) :
    tr'.view scope a' = tr.view scope a' := by
  simp only [Tree.view, h.changed a' hne, h.decoded a' hne, h.table, h.crypto]

omit P in
theorem WritesAt.live (h : WritesAt tr tr' a) (hne : a' ≠ a) : tr'.Live a' ↔ tr.Live a' := by
  simp only [Live, h.changed a' hne, h.table]

theorem WritesAt.proved (h : WritesAt tr tr' a) (hne : a' ≠ a)
    {n : Node} (hp : Proved K tr a' scope n s) : Proved K tr' a' scope n s := by
  refine ⟨?_, (h.view hne scope).trans hp.shown, ?_, hp.wf⟩
  · rw [h.crypto]
    exact hp.known
  · rw [h.crypto]
    exact hp.summary

/-- What stands at the written address: nothing, or a pending node with its reserved place. -/
def Slot (K : Set Id) (tr : Tree) (a : Id) : Option (UInt8 × Node × Summary) → Prop
  | none => tr.changed[a]? = some none ∧ tr.decoded[a]? = none ∧ tr.pendingScopes[a]? = none
  | some (scope, n, s) => tr.pendingScopes[a]? = some scope ∧ tr.decoded[a]? = some (n, s) ∧
      tr.changed[a]? = some (some (List.replicate (n.encode.length + 41) 0)) ∧
      Proved K tr a scope n s

theorem Sound.of_writesAt (hs : Sound K tr) (h : WritesAt tr tr' a)
    (slot : Option (UInt8 × Node × Summary)) (hslot : Slot K tr' a slot) : Sound K tr' := by
  refine ⟨?_, ?_, ?_, ?_, ?_, h.plan, h.cache⟩
  · intro a'
    by_cases hne : a' = a
    · subst hne
      cases slot with
      | none =>
        rw [Maps.mem_iff, hslot.2.2, hslot.1]
        simp
      | some x =>
        rw [Maps.mem_iff, hslot.1, hslot.2.2.1]
        simp
    · rw [Maps.mem_iff, h.pendingScopes a' hne, ← Maps.mem_iff, h.changed a' hne]
      exact hs.pending a'
  · intro a' scope hp
    by_cases hne : a' = a
    · subst hne
      cases slot with
      | none => cases hslot.2.2.symm.trans hp
      | some x =>
        cases hslot.1.symm.trans hp
        exact ⟨_, _, hslot.2.1, hslot.2.2.1, hslot.2.2.2⟩
    · rw [h.pendingScopes a' hne] at hp
      obtain ⟨n, s, hd, hc, hproved⟩ := hs.placeholder a' scope hp
      exact ⟨n, s, (h.decoded a' hne).trans hd, (h.changed a' hne).trans hc, h.proved hne hproved⟩
  · intro a' n s hd
    by_cases hne : a' = a
    · subst hne
      cases slot with
      | none => cases hslot.2.1.symm.trans hd
      | some x =>
        obtain ⟨rfl, rfl⟩ := Prod.mk.inj (Option.some.inj (hslot.2.1.symm.trans hd))
        exact ⟨_, hslot.2.2.2⟩
    · rw [h.decoded a' hne] at hd
      obtain ⟨scope, hproved⟩ := hs.decoded a' n s hd
      exact ⟨scope, h.proved hne hproved⟩
  · intro a' scope n s hr
    rw [h.reused] at hr
    simp at hr
  · intro a' hl
    by_cases hne : a' = a
    · subst hne
      cases slot with
      | none => exact absurd hl (by simp [Live, hslot.1])
      | some x =>
        obtain ⟨e, he, haddr⟩ := hslot.2.2.2.known
        exact ⟨_, e, _, he, haddr, hslot.2.2.2.shown⟩
    · obtain ⟨scope, e, n, he, haddr, hv⟩ := hs.live a' ((h.live hne).mp hl)
      exact ⟨scope, e, n, he, by rw [h.crypto]; exact haddr, (h.view hne scope).trans hv⟩

/-- Operations on one scope that stay within a set of entrances. -/
structure Within (K : Set Id) (scope : UInt8) (R : Id × Nat → Prop) (tr tr' : Tree) : Prop where
  table : tr'.table = tr.table
  crypto : tr'.crypto = tr.crypto
  layout : tr'.layout = tr.layout
  frame : ∀ scope' e, ¬ (scope' = scope ∧ R e) → memory K tr' scope' e = memory K tr scope' e
  /-- nothing leaves the plan -/
  planned : ∀ a : Id, tr.changed[a]? ≠ none → tr'.changed[a]? ≠ none

theorem Within.trans (h : Within K scope R tr tr') (h' : Within K scope R tr' tr'') : Within K scope R tr tr'' :=
  ⟨h'.table.trans h.table, h'.crypto.trans h.crypto, h'.layout.trans h.layout,
    fun scope' e he => (h'.frame scope' e he).trans (h.frame scope' e he),
    fun a ha => h'.planned a (h.planned a ha)⟩

theorem Within.mono {R' : Id × Nat → Prop} (h : Within K scope R tr tr')
    (hR : ∀ e, R e → R' e) : Within K scope R' tr tr' :=
  ⟨h.table, h.crypto, h.layout, fun scope' e he => h.frame scope' e fun hr => he ⟨hr.1, hR e hr.2⟩, h.planned⟩

theorem Reads.within (h : Reads tr tr') (scope : UInt8) (R : Id × Nat → Prop) : Within K scope R tr tr' :=
  ⟨h.table, h.crypto, h.layout, fun _ _ _ => by rw [h.memory], fun a ha => by rw [h.changed]; exact ha⟩

theorem WritesAt.within (hK : CollisionFree tr.crypto K)
    (he : Known K e) (h : WritesAt tr tr' (nodeAddress tr.crypto scope e))
    (hc : tr'.changed[nodeAddress tr.crypto scope e]? ≠ none) : Within K scope (· = e) tr tr' := by
  refine ⟨h.table, h.crypto, h.layout, fun scope' e' hne => ?_, fun a ha => ?_⟩
  · unfold memory
    split
    · next he' =>
      rw [h.crypto]
      refine h.view (fun haddr => hne ?_) scope'
      obtain ⟨rfl, rfl⟩ := hK he' he haddr
      exact ⟨rfl, rfl⟩
    · rfl
  · by_cases hne : a = nodeAddress tr.crypto scope e
    · rw [hne]
      exact hc
    · rw [h.changed a hne]
      exact ha

theorem Sound.writesAt_change (hs : Sound K tr) {value : Option Bytes}
    (h : tr.change a value = .ok tr') : WritesAt tr tr' a ∧ tr'.changed[a]? = some value ∧
      tr'.decoded[a]? = none ∧ tr'.pendingScopes[a]? = none := by
  obtain ⟨planBytes, hplan, rfl⟩ := change_eq_ok h
  refine ⟨⟨rfl, rfl, rfl, fun _ hne => Maps.get_insert_of_ne _ _ hne,
    fun _ hne => Maps.get_erase_of_ne _ hne, fun _ hne => Maps.get_erase_of_ne _ hne, rfl, hplan,
    (Nat.mul_le_mul_right _ Std.TreeMap.size_erase_le).trans hs.cache⟩, ?_⟩
  exact ⟨Std.TreeMap.getElem?_insert_self, Std.TreeMap.getElem?_erase_self, Std.TreeMap.getElem?_erase_self⟩

theorem Sound.erase (hs : Sound K tr) (hK : CollisionFree tr.crypto K) (he : Known K e) (h : tr.change (tr.address scope e.1 e.2) none = .ok tr') :
    Sound K tr' ∧ Within K scope (· = e) tr tr' ∧ memory K tr' scope e = none := by
  rw [address_entrance] at h
  obtain ⟨hw, hc, hd, hp⟩ := hs.writesAt_change h
  refine ⟨hs.of_writesAt hw none ⟨hc, hd, hp⟩, hw.within hK he (by rw [hc]; simp), ?_⟩
  rw [memory_known he, Tree.view, hw.crypto, hc]

theorem Sound.store (hs : Sound K tr) (hK : CollisionFree tr.crypto K) {n : Node} (he : Known K e) (hn : n.Wf)
    (h : tr.store scope e n = .ok (s, tr')) :
    Sound K tr' ∧ Within K scope (· = e) tr tr' ∧ memory K tr' scope e = some n ∧
      n.summary tr.crypto scope = .ok s := by
  simp only [Tree.store, Except.ok_iff, Prod.mk.injEq, address_entrance] at h
  obtain ⟨s, hsum, _, _, tr₁, hchange, tr₂, hrem, rfl, rfl⟩ := h
  obtain ⟨hw, hc, hd, _⟩ := hs.writesAt_change hchange
  obtain ⟨rfl, hcap⟩ := remember_eq_ok hrem
  set a := nodeAddress tr.crypto scope e with ha
  set tr₂ : Tree := { tr₁ with
    pendingScopes := tr₁.pendingScopes.insert a scope
    decoded := tr₁.decoded.insert a (n, s) } with htr₂
  have hdec : tr₂.decoded[a]? = some (n, s) := Std.TreeMap.getElem?_insert_self
  have hw₂ : WritesAt tr tr₂ a := by
    refine ⟨hw.table, hw.crypto, hw.layout, hw.changed, fun a' hne => ?_, fun a' hne => ?_, hw.reused, hw.plan, ?_⟩
    · exact (Maps.get_insert_of_ne _ _ hne).trans (hw.decoded a' hne)
    · exact (Maps.get_insert_of_ne _ _ hne).trans (hw.pendingScopes a' hne)
    · change (tr₁.decoded.insert a (n, s)).size * _ ≤ maxPlan
      rw [Maps.size_insert_of_none _ _ hd]
      exact hcap.resolve_left ((Maps.not_mem_iff _ _).mpr hd)
  have hview : tr₂.view scope a = some n := by
    have hc₂ : tr₂.changed[a]? = some (some (List.replicate (n.encode.length + 41) 0)) := hc
    rw [Tree.view, hc₂, hdec]
    rfl
  have hproved : Proved K tr₂ a scope n s := by
    refine ⟨⟨e, he, ?_⟩, hview, ?_, hn⟩
    · rw [hw₂.crypto]
    · rw [hw₂.crypto]
      exact hsum
  refine ⟨hs.of_writesAt hw₂ (some (scope, n, s)) ⟨?_, hdec, hc, hproved⟩, hw₂.within hK he ?_, ?_, hsum⟩
  · exact Std.TreeMap.getElem?_insert_self
  · change tr₁.changed[a]? ≠ none
    rw [hc]
    simp
  · rw [memory_known he, hw₂.crypto]
    exact hview

end Kilogram.Index.Tree
