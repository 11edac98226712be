import Kilogram.Vault.Commit
import Kilogram.History.Lowered

/-!
# What a commit does

A commit that is accepted leaves the root as it is, or it puts records outside the ticket namespaces,
makes credit actions and passes the final checks.
-/

namespace Kilogram.Vault
open History
open Except (ok_iff bind_eq_ok pure_eq_ok foldlM_invariant)
section
variable [Primitives]

/-- The puts and credit actions an input stands for. -/
inductive Lowers (r : Root) : Input → List (Key × Bytes) → List CreditAction → Prop
  | generic {puts : List (Key × Bytes)} {credits : List CreditAction}
      (unmanaged : ∀ entry ∈ puts, entry.1.ns.managed = false)
      (guard : historyGuardGeneric r (puts.map fun entry => .put entry.1 entry.2) credits = .ok ()) :
      Lowers r (.generic (puts.map fun entry => .put entry.1 entry.2) credits) puts credits
  | history {c : UInt8} {op : Operation} {p : Plan} (hc : c ≤ 1) (bound : op.checkBound = .ok ())
      (lower : historyLower r c op = .ok (some p)) (valid : historyValidatePlan r p = .ok ()) :
      Lowers r (.history c op) p.puts.toList p.credits
  | protocol2 {c : UInt8} {op : Operation2} {p : Plan} (hc : c ≤ 1)
      (bound : op.checkBound = .ok ()) (lower : history2Lower r c op = .ok (some p))
      (valid : historyValidatePlan r p = .ok ()) :
      Lowers r (.protocol2 c op) p.puts.toList p.credits

/-- An accepted change: puts, then credit actions, then the checks. -/
structure Applied (r : Root) (q : Request) (s : Root) (puts : List (Key × Bytes))
    (credits : List CreditAction) (mid w : Work) : Prop where
  lowers : Lowers r q.input puts credits
  layout : r.layout = .component5
  id : q.id ≠ r.commitId
  expected : q.expected = r.generation
  put : putAll (Work.new r) puts = .ok mid
  credit : credits.foldlM Credits.apply mid = .ok w
  funded : checkFunded w = .ok ()
  check : w.root.check = .ok ()
  generation : s.generation.toNat = w.root.generation.toNat + 1
  root : s = { w.root with generation := s.generation, commitId := q.id, requestDigest := q.digest }

variable {w : Work} {r : Root} {I : Root → Prop}

omit [Primitives] in
theorem applyMutations_eq_ok {v : Work} {mutations : List Mutation} (h : mutations.foldlM applyMutation w = .ok v) :
    ∃ puts : List (Key × Bytes), mutations = puts.map (fun entry => .put entry.1 entry.2) ∧
      (∀ entry ∈ puts, entry.1.ns.managed = false) ∧ putAll w puts = .ok v := by
  induction mutations generalizing w with
  | nil => exact ⟨[], rfl, by simp, h⟩
  | cons m ms ih =>
    rw [List.foldlM_cons, bind_eq_ok] at h
    obtain ⟨u, hu, h⟩ := h
    obtain ⟨puts, rfl, hputs, hrun⟩ := ih h
    cases m with
    | put k value =>
      simp only [applyMutation, ok_iff] at hu
      obtain ⟨_, hk, hput⟩ := hu
      refine ⟨(k, value) :: puts, rfl, ?_, ?_⟩
      · rw [List.forall_mem_cons]
        exact ⟨by simpa using hk, hputs⟩
      · rw [putAll, List.foldlM_cons]
        exact (Except.bind_of_ok hput _).trans hrun
    | retire k j => exact absurd hu Except.throw_ne_ok

/-- The plan of a history operation, when it is not already done. -/
theorem historyRun_eq_ok {v : Work} {o : Option Plan} (h : historyRun w o = .ok v) :
    v = w ∨ ∃ p mid, o = some p ∧ historyValidatePlan w.root p = .ok () ∧
      putAll w p.puts.toList = .ok mid ∧ p.credits.foldlM Credits.apply mid = .ok v := by
  cases o with
  | none => exact .inl (pure_eq_ok.mp h).symm
  | some p =>
    obtain ⟨hvalid, mid, hput, hcredit⟩ := historyExecute_eq_ok h
    exact .inr ⟨p, mid, rfl, hvalid, hput, hcredit⟩

/-- The bounds an entry point checks on its input. -/
def Bounded : Input → Prop
  | .generic .. => True
  | .history c op => c ≤ 1 ∧ op.checkBound = .ok ()
  | .protocol2 c op => c ≤ 1 ∧ op.checkBound = .ok ()

/-- Applying an input changes nothing or runs the puts and credit actions it stands for. -/
theorem applyInput_eq_ok {input : Input} (hbound : Bounded input)
    (hguard : guardInput r input = .ok ()) (h : applyInput (Work.new r) input = .ok w) :
    w = Work.new r ∨ ∃ puts credits mid, Lowers r input puts credits ∧
      putAll (Work.new r) puts = .ok mid ∧ credits.foldlM Credits.apply mid = .ok w := by
  cases input with
  | generic mutations credits =>
    simp only [applyInput, applyGeneric, ok_iff] at h
    simp only [guardInput, ok_iff] at hguard
    obtain ⟨_, _, hguard⟩ := hguard
    obtain ⟨mid, hmid, hcredit⟩ := h
    obtain ⟨puts, rfl, hputs, hput⟩ := applyMutations_eq_ok hmid
    exact .inr ⟨puts, credits, mid, .generic hputs hguard, hput, hcredit⟩
  | history c op =>
    simp only [applyInput, historyApply, ok_iff] at h
    obtain ⟨o, hlower, h⟩ := h
    rcases historyRun_eq_ok h with rfl | ⟨p, mid, rfl, hvalid, hput, hcredit⟩
    · exact .inl rfl
    · exact .inr ⟨_, _, mid, .history hbound.1 hbound.2 hlower hvalid, hput, hcredit⟩
  | protocol2 c op =>
    simp only [applyInput, history2Apply, ok_iff] at h
    obtain ⟨o, hlower, h⟩ := h
    rcases historyRun_eq_ok h with rfl | ⟨p, mid, rfl, hvalid, hput, hcredit⟩
    · exact .inl rfl
    · exact .inr ⟨_, _, mid, .protocol2 hbound.1 hbound.2 hlower hvalid, hput, hcredit⟩

theorem commitWith_cases {s : Root} {q : Request} {same : Bool} (hbound : Bounded q.input)
    (h : commitWith r q.expected q.id q.digest q.input = .ok (s, same)) :
    s = r ∨ ∃ puts credits mid w, Applied r q s puts credits mid w := by
  simp only [commitWith, ok_iff, not_not] at h
  obtain ⟨_, _, _, hlayout, _, hguard, h⟩ := h
  split at h
  · simp only [ok_iff, Prod.mk.injEq] at h
    obtain ⟨_, _, rfl, _⟩ := h
    exact .inl rfl
  · next hid =>
    simp only [ok_iff, not_not] at h
    obtain ⟨_, hexpected, w, happly, _, hfunded, _, hcheck, h⟩ := h
    split at h
    · exact .inl (Prod.mk.inj (pure_eq_ok.mp h)).1.symm
    · next hchanged =>
      simp only [ok_iff, Prod.mk.injEq] at h
      obtain ⟨generation, hgen, rfl, _⟩ := h
      rcases applyInput_eq_ok hbound hguard happly with rfl | ⟨puts, credits, mid, hlow, hput, hcredit⟩
      · exact absurd ⟨rfl, rfl⟩ hchanged
      · exact .inr ⟨puts, credits, mid, w, hlow, hlayout, hid, hexpected, hput, hcredit, hfunded,
          hcheck, checkedAdd_eq_some.mp hgen, rfl⟩

/-- An accepted commit leaves the root as it is, or applies the change it stands for. -/
theorem step_cases {s : Root} {q : Request} {same : Bool} (h : step r q = .ok (s, same)) :
    s = r ∨ ∃ puts credits mid w, Applied r q s puts credits mid w := by
  obtain ⟨expected, id, digest, input⟩ := q
  cases input with
  | generic mutations credits =>
    simp only [step, commit, ok_iff] at h
    obtain ⟨_, _, _, _, _, _, _, _, _, _, h⟩ := h
    exact commitWith_cases (q := ⟨expected, id, digest, _⟩) trivial h
  | history c op =>
    simp only [step, commitHistory, ok_iff] at h
    obtain ⟨_, _, _, hc, _, hbound, _, _, h⟩ := h
    exact commitWith_cases (q := ⟨expected, id, digest, _⟩) ⟨UInt8.not_lt.mp hc, hbound⟩ h
  | protocol2 c op =>
    simp only [step, commitHistoryProtocol2, ok_iff] at h
    obtain ⟨_, _, _, hc, _, hbound, _, _, h⟩ := h
    exact commitWith_cases (q := ⟨expected, id, digest, _⟩) ⟨UInt8.not_lt.mp hc, hbound⟩ h

/-- Puts of a commit stay outside the namespaces of tickets. -/
theorem Lowers.unmanaged {input : Input} {puts : List (Key × Bytes)}
    {credits : List CreditAction} (h : Lowers r input puts credits) :
    ∀ entry ∈ puts, entry.1.ns.managed = false := by
  cases h with
  | generic unmanaged _ => exact unmanaged
  | history _ _ _ valid | protocol2 _ _ _ valid =>
    exact fun entry he => managed_of_allowedPut ((scoped_of_validate valid).allowed entry he)

omit [Primitives] in
/-- What every put outside the ticket namespaces preserves. -/
theorem putAll_invariant {v : Work} {puts : List (Key × Bytes)}
    (hput : ∀ (u u' : Work) (entry : Key × Bytes), entry ∈ puts →
      u.put entry.1 entry.2 0 false = .ok u' → I u.root → I u'.root)
    (h : putAll w puts = .ok v) (hw : I w.root) : I v.root :=
  foldlM_invariant (fun u : Work => I u.root)
    (fun u entry u' he hu hI => hput u u' entry he hu hI) h hw

omit [Primitives] in
theorem credits_invariant {v : Work} {credits : List CreditAction}
    (hcredit : ∀ (u u' : Work) (a : CreditAction), a ∈ credits → Credits.apply u a = .ok u' → I u.root → I u'.root)
    (h : credits.foldlM Credits.apply w = .ok v) (hw : I w.root) : I v.root :=
  foldlM_invariant (fun u : Work => I u.root)
    (fun u a u' ha hu hI => hcredit u u' a ha hu hI) h hw

theorem reachable_of_history {claim : CreationClaim} {incarnation : Id} {quota : Two Nat}
    {requests : List Request} (h : history claim incarnation quota requests = .ok r) :
    Reachable r := by
  simp only [history, ok_iff] at h
  obtain ⟨r₀, hcreate, hfold⟩ := h
  refine foldlM_invariant Reachable ?_ hfold (.create hcreate)
  intro b q s _ hstep hb
  simp only [ok_iff, Prod.exists] at hstep
  obtain ⟨s', same, hstep, rfl⟩ := hstep
  exact .step hb hstep

/-- A property of new roots that every accepted change preserves holds of all reachable roots. -/
theorem invariant_of_reachable (hcreate : ∀ claim incarnation quota r, create claim incarnation quota = .ok r → I r)
    (hstep : ∀ r q s puts credits mid w, I r → Applied r q s puts credits mid w → I s)
    (h : Reachable r) : I r := by
  induction h with
  | create h => exact hcreate _ _ _ _ h
  | step _ h ih =>
    rcases step_cases h with rfl | ⟨puts, credits, mid, w, happ⟩
    · exact ih
    · exact hstep _ _ _ puts credits mid w ih happ

end
end Kilogram.Vault
