import Kilogram.Vault.Owners

/-!
# The fence around managed histories

A generic commit can not change the records or the ledger of a context whose history has been
initialised, and a history operation stays within its own context.
-/

namespace Kilogram.Vault
open History Credits
open Except (ok_iff pure_eq_ok)
section
variable [Primitives]

/-- The history of a context has been initialised: it has an identity or heads. -/
def Managed (r : Root) (c : UInt8) : Prop :=
  ∃ (k : Key) (x : Record), (identityKey c = .ok k ∨ headsKey c = .ok k) ∧ r.records[k.place]? = some x

/-- The contexts an input has to leave alone. -/
def Fenced (r : Root) (d : UInt8) : Input → Prop
  | .generic .. => Managed r d
  | .history c _ | .protocol2 c _ => c ≠ d

theorem not_managed_of_guardContext {r : Root} {c : UInt8} (h : guardContext r c = .ok ()) : ¬ Managed r c := by
  simp only [guardContext, hget_value, ok_iff, not_not] at h
  obtain ⟨_, ⟨ik, hik, hidentity⟩, _, rfl, _, ⟨hk, hhk, hheads⟩, rfl⟩ := h
  have hnone : r.records[ik.place]? = none ∧ r.records[hk.place]? = none :=
    ⟨(Root.get_eq_none hidentity).2, (Root.get_eq_none hheads).2⟩
  rintro ⟨k, x, hk' | hk', hx⟩
  · cases hik.symm.trans hk'
    cases hnone.1.symm.trans hx
  · cases hhk.symm.trans hk'
    cases hnone.2.symm.trans hx

omit [Primitives] in
theorem context_mem_of_guardKey {r : Root} {k : Key} {cs : List UInt8} (h : guardKey r k = .ok cs) :
    k.context ∈ cs := by
  simp only [guardKey, ok_iff] at h
  obtain ⟨_, _, h⟩ := h
  split at h
  · split at h
    · obtain rfl := pure_eq_ok.mp h
      exact List.mem_singleton_self _
    · simp only [ok_iff] at h
      obtain ⟨_, _, _, _, rfl⟩ := h
      exact List.mem_cons_self
  · obtain rfl := pure_eq_ok.mp h
    exact List.mem_singleton_self _

/-- A generic commit touches no managed context. -/
theorem not_managed_of_guard {r : Root} {mutations : List Mutation} {credits : List CreditAction}
    (h : historyGuardGeneric r mutations credits = .ok ()) :
    (∀ m ∈ mutations, ¬ Managed r m.key.context) ∧ ∀ a ∈ credits, ¬ Managed r a.context := by
  simp only [historyGuardGeneric, ok_iff, Except.forM_eq_ok] at h
  obtain ⟨_, _, cited, _, touched, htouched, hcontexts⟩ := h
  constructor
  · intro m hm
    obtain ⟨cs, hcs, hguard⟩ := Except.exists_of_mapM htouched (List.mem_append_left _ (List.mem_map_of_mem hm))
    exact not_managed_of_guardContext (hcontexts _ (List.mem_append_right _
      (List.mem_flatten_of_mem hcs (context_mem_of_guardKey hguard))))
  · intro a ha
    exact not_managed_of_guardContext (hcontexts _ (List.mem_append_left _ (List.mem_map_of_mem ha)))

theorem Lowers.elsewhere {r : Root} {input : Input} {puts : List (Key × Bytes)}
    {credits : List CreditAction} {d : UInt8} (h : Lowers r input puts credits)
    (hd : Fenced r d input) :
    (∀ entry ∈ puts, entry.1.context ≠ d) ∧ ∀ a ∈ credits, a.context ≠ d := by
  have hplan {c : UInt8} {p : Plan} (hp : p.context = c) (hc : c ≠ d) (hvalid : historyValidatePlan r p = .ok ()) :
      (∀ entry ∈ p.puts.toList, entry.1.context ≠ d) ∧ ∀ a ∈ p.credits, a.context ≠ d := by
    have hscope := scoped_of_validate hvalid
    subst hp
    exact ⟨fun entry he => hscope.context entry he ▸ hc, fun a ha => (hscope.credit a ha).1 ▸ hc⟩
  cases h with
  | generic _ guard =>
    obtain ⟨hmutations, hcredits⟩ := not_managed_of_guard guard
    constructor
    · rintro entry he rfl
      exact hmutations _ (List.mem_map_of_mem he) hd
    · rintro a ha rfl
      exact hcredits a ha hd
  | history _ _ lower valid => exact hplan (historyLower_context lower) hd valid
  | protocol2 _ _ lower valid => exact hplan (history2Lower_context lower) hd valid

omit [Primitives] in
theorem putAll_sameOwned {w v : Work} {puts : List (Key × Bytes)} {d : UInt8} (howned : w.root.Owned)
    (hputs : ∀ entry ∈ puts, entry.1.context ≠ d) (h : putAll w puts = .ok v) :
    v.root.Owned ∧ w.root.SameOwned d v.root ∧ v.root.ledger = w.root.ledger := by
  refine Except.foldlM_invariant (fun u : Work => u.root.Owned ∧ w.root.SameOwned d u.root ∧
    u.root.ledger = w.root.ledger) ?_ h ⟨howned, .refl d _, rfl⟩
  rintro u entry u' he hput ⟨hu, hsame, hledger⟩
  obtain ⟨hc, _, hstep⟩ := Work.puts_of_put hput
  refine ⟨hstep.owned hu, hsame.trans (hstep.sameOwned hu hc (hputs entry he)), ?_⟩
  rw [← hledger]
  cases hstep with
  | same => rfl
  | fresh => rfl
  | replaced => rfl

omit [Primitives] in
theorem applyAll_sameOwned {w v : Work} {credits : List CreditAction} {d : UInt8} (hd : d ≤ 1)
    (howned : w.root.Owned) (hcredits : ∀ a ∈ credits, a.context ≠ d)
    (h : credits.foldlM apply w = .ok v) :
    w.root.SameOwned d v.root ∧ v.root.ledger.get d = w.root.ledger.get d := by
  have hrun := Except.foldlM_invariant (fun u : Work => u.root.Owned ∧ w.root.SameOwned d u.root ∧
    u.root.ledger.get d = w.root.ledger.get d) ?_ h ⟨howned, .refl d _, rfl⟩
  · exact hrun.2
  · rintro u a u' ha hu ⟨howned, hsame, hledger⟩
    have hne := hcredits a ha
    exact ⟨apply_owned howned hu, hsame.trans (apply_sameOwned howned hne hu),
      ((apply_keeps hu).2.ledger d hd hne.symm).trans hledger⟩

/-- An accepted commit leaves the records and the ledger of every context it is fenced from. -/
theorem commit_respects_fence {r s : Root} {q : Request} {same : Bool} (hr : Reachable r)
    (h : step r q = .ok (s, same)) {d : UInt8} (hd : d ≤ 1) (hfenced : Fenced r d q.input) :
    r.SameOwned d s ∧ s.ledger.get d = r.ledger.get d := by
  rcases step_cases h with rfl | ⟨puts, credits, mid, w, happ⟩
  · exact ⟨.refl d _, rfl⟩
  obtain ⟨hputs, hcredits⟩ := happ.lowers.elsewhere hfenced
  obtain ⟨howned, hsame, hledger⟩ := putAll_sameOwned (owned_of_reachable hr) hputs happ.put
  obtain ⟨hsame', hledger'⟩ := applyAll_sameOwned hd howned hcredits happ.credit
  rw [happ.root]
  exact ⟨hsame.trans hsame', hledger'.trans (by rw [hledger]; rfl)⟩

end

/-- The history of context 0 is initialised. -/
def sampleManaged : List Request := [⟨1, 7, 0, .history 0 (.init ⟨⟨3, 8, 9, List.replicate 43 65⟩, 0⟩)⟩]

/-- A generic commit in the other context. -/
def sampleForeign : Request := ⟨2, 8, 0, .generic [.put ⟨1, .current, 5⟩ [1]] []⟩

theorem commit_respects_fence_sample : ∃ (r s : Root) (same : Bool),
    @history Primitives.plain ⟨1, 2, ⟨3, 4⟩⟩ 0 ⟨2 ^ 34, 2 ^ 34⟩ sampleManaged = .ok r ∧
      @step Primitives.plain r sampleForeign = .ok (s, same) ∧ @Managed Primitives.plain r 0 ∧
      r.SameOwned 0 s ∧ s.ledger.get 0 = r.ledger.get 0 := by
  let _ := Primitives.plain
  obtain ⟨⟨_, _, _⟩, hrun, hheads⟩ := Except.exists_of_any (x := do
      let r ← history ⟨1, 2, ⟨3, 4⟩⟩ 0 ⟨2 ^ 34, 2 ^ 34⟩ sampleManaged
      let s ← step r sampleForeign
      let k ← headsKey 0
      return (r, s, k))
    (p := fun y => (y.1.records[y.2.2.place]?).isSome) (by decide +kernel)
  simp only [ok_iff, Prod.mk.injEq, Prod.exists] at hrun
  obtain ⟨r, hr, s, same, hstep, k, hk, rfl, rfl, rfl⟩ := hrun
  obtain ⟨x, hx⟩ := Option.isSome_iff_exists.mp hheads
  have hmanaged : Managed r 0 := ⟨k, x, Or.inr hk, hx⟩
  exact ⟨r, s, same, hr, hstep, hmanaged, commit_respects_fence (reachable_of_history hr) hstep (by decide) hmanaged⟩

end Kilogram.Vault
