import Kilogram.Scheduler.Chains

/-!
# Storing scheduler states

A writer that is interrupted leaves the records as they were, or has added its own.
-/

namespace Kilogram.Scheduler
open Crash Crash.Prog
open Except (ensure_eq_ok)
variable {P : Primitives} {planId recipient : Id} {s : SignedRecoverySchedulerState}
  {chain : List SignedRecoverySchedulerState} {listing : Listing} {t t' : StateDirectory}

theorem records_modify (t : StateDirectory) (planId : Id) (f : PlanDirectory → PlanDirectory) :
    (t.modify planId f).records = Function.update t.records planId (f ((t planId).getD ⟨[], []⟩)).records := by
  funext other
  unfold StateDirectory.records StateDirectory.modify
  by_cases h : other = planId
  · subst h
    simp
  · simp [h]

theorem records_getD (t : StateDirectory) (planId : Id) : ((t planId).getD ⟨[], []⟩).records = t.records planId := by
  unfold StateDirectory.records
  cases t planId with
  | none => rfl
  | some directory => rfl

theorem records_modify_same {f : PlanDirectory → PlanDirectory} (hf : ∀ d, (f d).records = d.records)
    (t : StateDirectory) (planId : Id) : (t.modify planId f).records = t.records := by
  rw [records_modify, hf, records_getD, Function.update_eq_self]

/-- The state is the next one to be stored. -/
structure Accepted (P : Primitives) (listing : Listing) (t : StateDirectory)
    (s : SignedRecoverySchedulerState) (existing : Option SignedRecoverySchedulerState) : Prop where
  verifies : s.verify P = .ok ()
  loads : loadRecoverySchedulerState P listing t s.content.planId s.content.recipientDeviceId = .ok existing
  next : verifyNext P existing s = .ok ()
  size : s.toAllocvec.length ≤ maxSchedulerStateBytes

def Placed (P : Primitives) (t : StateDirectory) (s : SignedRecoverySchedulerState) (t' : StateDirectory) : Prop :=
  t'.records = Function.update t.records s.content.planId (t.records s.content.planId ++ [fileOf P s])

theorem encode_eq_ok {bytes : Bytes} (h : s.encode P = .ok bytes) : s.toAllocvec.length ≤ maxSchedulerStateBytes := by
  simp only [SignedRecoverySchedulerState.encode, Except.bind_eq_ok, ensure_eq_ok] at h
  obtain ⟨_, -, _, hsize, -⟩ := h
  exact hsize

theorem encode_of (hverify : s.verify P = .ok ()) (hsize : s.toAllocvec.length ≤ maxSchedulerStateBytes) :
    s.encode P = .ok s.toAllocvec := by
  simp only [SignedRecoverySchedulerState.encode, Except.bind_eq_ok, ensure_eq_ok]
  exact ⟨(), hverify, (), hsize, rfl⟩

theorem wp_persist (hfree : ∀ existing, Accepted P listing t s existing →
      t.file s.content.planId (s.content.generation, stateDigest P s) = none) :
    wp listing (persistRecoverySchedulerState P s)
      (fun _ t' => (∃ existing, Accepted P listing t s existing) ∧ Placed P t s t')
      (fun t' => t'.records = t.records)
      (fun _ t' => t'.records = t.records ∧ ∀ existing, ¬ Accepted P listing t s existing) t := by
  unfold persistRecoverySchedulerState
  refine wp_bind (wp_lift (fun _ hverify => ?_) fun e he => ⟨rfl, fun existing h => ?_⟩)
  swap
  · cases he.symm.trans h.verifies
  refine wp_bind (wp_environment (wp_bind (wp_disk (wp_bind (wp_lift (fun existing hload => ?_)
    fun e he => ⟨rfl, fun existing h => ?_⟩)))))
  swap
  · cases he.symm.trans h.loads
  refine wp_bind (wp_lift (fun _ hnext => ?_) fun e he => ⟨rfl, fun existing' h => ?_⟩)
  swap
  · cases hload.symm.trans h.loads
    cases he.symm.trans h.next
  refine wp_bind (wp_act rfl ?_)
  have hcreated := records_modify_same (f := id) (fun _ => rfl) t s.content.planId
  have hname : schedulerStateFileName P s = .ok (s.content.generation, stateDigest P s) :=
    Except.bind_of_ok (stateId_of_verify hverify) _
  refine wp_bind (wp_lift (fun name hname' => ?_) fun e he => absurd (he.symm.trans hname) (by simp))
  cases hname.symm.trans hname'
  refine wp_bind (wp_lift (fun _ hencode => ?_) fun e he => ⟨hcreated, fun existing' h => ?_⟩)
  swap
  · cases he.symm.trans (encode_of h.verifies h.size)
  refine wp_bind (wp_act hcreated (wp_bind (wp_act ?_ ?_)))
  · exact (records_modify_same (f := PlanDirectory.newTemporary) (fun _ => rfl) _ _).trans hcreated
  have haccepted : Accepted P listing t s existing := ⟨hverify, hload, hnext, encode_eq_ok hencode⟩
  -- The temporary file is written; nothing was done to the records so far.
  have hwritten : (((t.modify s.content.planId id).modify s.content.planId
      PlanDirectory.newTemporary).modify s.content.planId (PlanDirectory.writeTemporary s)).records = t.records := by
    rw [records_modify_same (f := PlanDirectory.writeTemporary s) (fun _ => rfl),
      records_modify_same (f := PlanDirectory.newTemporary) (fun _ => rfl), hcreated]
  refine wp_bind (wp.post ?_ fun _ t' ht' => wp_pure ⟨⟨existing, haccepted⟩, ht'⟩)
  unfold persistNoclobber
  refine wp_bind (wp_disk ?_)
  have hnone := hfree existing haccepted
  unfold StateDirectory.file at hnone ⊢
  rw [hwritten, hnone]
  refine wp_act hwritten ?_
  unfold Placed
  rw [records_modify]
  change Function.update _ _ (_ ++ _) = _
  rw [records_getD, hwritten]
  rfl

theorem serve_cases (call : Storing) (hfree : ∀ existing, Accepted P call.listing t call.state existing →
      t.file call.state.content.planId (call.state.content.generation, stateDigest P call.state) = none) :
    ((service P).serve call t).2.records = t.records ∨ (∃ existing, Accepted P call.listing t call.state existing) ∧
        Placed P t call.state ((service P).serve call t).2 := by
  have hends := wp_persist hfree call.power
  unfold service
  dsimp only
  rcases hr : persistRecoverySchedulerState P call.state call.listing ⟨t, call.power⟩ with
    ⟨(_ | e) | name, w⟩ <;> rw [hr] at hends
  · exact Or.inl hends.1
  · exact Or.inl hends.1.1
  · exact Or.inr hends.1

/-- The records of the plan are the files of the chain. -/
structure Keeps (P : Primitives) (t : StateDirectory) (planId : Id)
    (chain : List SignedRecoverySchedulerState) : Prop where
  records : t.records planId = chain.map (fileOf P)
  sound : Sound P planId chain

variable {existing : Option SignedRecoverySchedulerState}

theorem Keeps.getLast (h : Keeps P t s.content.planId chain) (ha : Accepted P listing t s existing) :
    existing = chain.getLast? ∧ chain.length ≤ maxSchedulerStateRecords :=
  h.sound.of_load h.records ha.loads

theorem Keeps.generation (h : Keeps P t s.content.planId chain) (ha : Accepted P listing t s existing) :
    s.content.generation = chain.length := by
  obtain ⟨rfl, hlength⟩ := h.getLast ha
  have hnext := ha.next
  cases hlast : chain.getLast? with
  | none =>
    rw [hlast] at hnext
    rw [List.getLast?_eq_none_iff.mp hlast]
    exact (ensure_eq_ok.mp hnext).1
  | some previous =>
    rw [hlast] at hnext
    have hgeneration := (verifySuccessorOf_eq_ok.mp hnext).2.2.generation
    have hpos : 0 < chain.length := by
      cases chain with
      | nil => cases hlast
      | cons => simp
    rw [List.getLast?_eq_getElem?, List.getElem?_eq_getElem (by omega)] at hlast
    rw [hgeneration, ← Option.some.inj hlast, h.sound.generation]
    unfold saturatingAdd
    unfold maxSchedulerStateRecords at hlength
    omega

theorem Keeps.generation_lt (h : Keeps P t planId chain) {a : SignedRecoverySchedulerState}
    (ha : a ∈ chain) : a.content.generation < chain.length := by
  obtain ⟨i, hi, rfl⟩ := List.mem_iff_getElem.mp ha
  rw [h.sound.generation hi]
  exact hi

theorem Keeps.free (h : Keeps P t s.content.planId chain)
    (existing : Option SignedRecoverySchedulerState) (ha : Accepted P listing t s existing) :
    t.file s.content.planId (s.content.generation, stateDigest P s) = none := by
  unfold StateDirectory.file
  rw [List.find?_eq_none, h.records]
  intro file hfile hname
  obtain ⟨a, hmem, rfl⟩ := List.mem_map.mp hfile
  have hlt := h.generation_lt hmem
  have heq : a.content.generation = s.content.generation := congrArg Prod.fst (of_decide_eq_true hname)
  rw [h.generation ha] at heq
  omega

theorem holds_eq {t : StateDirectory} (h : Keeps P t s.content.planId chain) : t.holds s = decide (s ∈ chain) := by
  unfold StateDirectory.holds
  rw [h.records, Bool.eq_iff_iff, List.any_map, List.any_eq_true, decide_eq_true_iff]
  constructor
  · rintro ⟨a, ha, heq⟩
    exact of_decide_eq_true heq ▸ ha
  · exact fun hs => ⟨s, hs, decide_eq_true rfl⟩

theorem Keeps.placed (h : Keeps P t s.content.planId chain) (ha : Accepted P listing t s existing)
    (hplaced : Placed P t s t') : Keeps P t' s.content.planId (chain ++ [s]) := by
  obtain ⟨hlast, hlength⟩ := h.getLast ha
  refine ⟨?_, ?_, ?_, ?_, ?_⟩
  · rw [hplaced, Function.update_self, h.records, List.map_append]
    rfl
  · refine h.sound.linked.append (List.isChain_singleton s) ?_
    rintro previous hprevious next (_ | ⟨⟩)
    have hnext := ha.next
    rw [hlast, hprevious] at hnext
    exact hnext
  · cases chain with
    | nil =>
      rintro a (_ | ⟨⟩)
      exact h.generation ha
    | cons first rest => exact h.sound.first
  · intro a hmem
    rcases List.mem_append.mp hmem with hmem | hmem
    · exact h.sound.readable a hmem
    · rw [List.mem_singleton.mp hmem]
      exact ⟨ha.verifies, ha.size, rfl⟩
  · rw [List.length_append, List.length_singleton]
    exact Nat.succ_le_succ hlength

theorem Keeps.same (h : Keeps P t planId chain) (hsame : t'.records planId = t.records planId) :
    Keeps P t' planId chain :=
  ⟨hsame.trans h.records, h.sound⟩

theorem storedFrom_append (planId : Id) (t : StateDirectory) (before later : List Storing) :
    storedFrom P planId t (before ++ later) = storedFrom P planId t before ++
      storedFrom P planId (before.foldl (fun t call => ((service P).serve call t).2) t) later := by
  induction before generalizing t with
  | nil => rfl
  | cons call before ih =>
    simp only [List.cons_append, storedFrom, List.foldl_cons]
    split_ifs
    · rw [ih]
      rfl
    · exact ih _

theorem stored_concat (planId : Id) (calls : List Storing) (call : Storing) : stored P planId (calls ++ [call]) =
      if call.state.content.planId = planId ∧ ((service P).after calls).holds call.state = false ∧
          ((service P).after (calls ++ [call])).holds call.state = true then
        stored P planId calls ++ [call.state]
      else stored P planId calls := by
  rw [stored, storedFrom_append, Service.after_concat]
  change stored P planId calls ++ storedFrom P planId ((service P).after calls) [call] = _
  simp only [storedFrom]
  split_ifs
  · rfl
  · exact List.append_nil _

theorem Keeps.step {calls : List Storing} (call : Storing)
    (h : ∀ planId, Keeps P ((service P).after calls) planId (stored P planId calls)) (planId : Id) :
    Keeps P ((service P).serve call ((service P).after calls)).2 planId
      (stored P planId (calls ++ [call])) := by
  have hplan := h call.state.content.planId
  rw [stored_concat, Service.after_concat]
  rcases serve_cases (t := (service P).after calls) call (fun existing => hplan.free existing) with
    hsame | ⟨⟨existing, ha⟩, hplaced⟩
  · -- The records did not change, so that nothing was stored.
    have hheld := holds_eq hplan
    rw [← holds_eq (hplan.same (congrFun hsame _))] at hheld
    rw [if_neg]
    · exact (h planId).same (congrFun hsame planId)
    · rintro ⟨-, hbefore, hafter⟩
      rw [hheld, hafter] at hbefore
      cases hbefore
  · have hnext := hplan.placed ha hplaced
    have hnew : call.state ∉ stored P call.state.content.planId calls := by
      intro hmem
      have hlt := hplan.generation_lt hmem
      rw [hplan.generation ha] at hlt
      omega
    by_cases hcase : call.state.content.planId = planId
    · subst hcase
      rw [if_pos]
      · exact hnext
      · refine ⟨rfl, ?_, ?_⟩
        · rw [holds_eq hplan]
          exact decide_eq_false hnew
        · rw [holds_eq hnext]
          simp
    · rw [if_neg fun h => hcase h.1]
      refine (h planId).same ?_
      rw [hplaced]
      exact Function.update_of_ne (fun h => hcase h.symm) _ _

theorem keeps_after (calls : List Storing) (planId : Id) :
    Keeps P ((service P).after calls) planId (stored P planId calls) := by
  refine Service.history (S := service P) (I := fun calls t => ∀ planId, Keeps P t planId (stored P planId calls))
    ?_ (fun calls call h => Keeps.step call h) calls planId
  intro planId
  exact ⟨rfl, List.isChain_nil, by simp [stored, storedFrom], by simp [stored, storedFrom], by simp [stored, storedFrom]⟩

end Kilogram.Scheduler
