import Kilogram.Scheduler.Files

/-!
# Loading a chain of scheduler states

Where the records of a plan are the files of a chain, every listing of them loads the last state of the
chain, unless there are more of them than a load reads.
-/

namespace Kilogram.Scheduler
open Except (ensure ensure_eq_ok ensure_of ok_iff bind_eq_ok bind_of_ok)
variable {P : Primitives} {planId recipient : Id} {s : SignedRecoverySchedulerState}
  {chain : List SignedRecoverySchedulerState} {listing : Listing} {t : StateDirectory}

/-- The identifier of a state that verifies. -/
def stateDigest (P : Primitives) (s : SignedRecoverySchedulerState) : Id :=
  P.digest (schedulerStateIdDomain ++ s.toAllocvec)

theorem stateId_of_verify (h : s.verify P = .ok ()) : s.stateId P = .ok (stateDigest P s) := bind_of_ok h _

/-- What the check of a successor says. -/
structure Follows (P : Primitives) (previous next : SignedRecoverySchedulerState) : Prop where
  plan : next.content.planId = previous.content.planId
  recipient : next.content.recipientDeviceId = previous.content.recipientDeviceId
  generation : next.content.generation = saturatingAdd 64 previous.content.generation 1
  previousId : next.content.previousStateId = some (stateDigest P previous)
  observed : previous.content.lastObservedUnixSeconds ≤ next.content.lastObservedUnixSeconds
  live : previous.content.lifecycle.isTerminal = false
  transition : validateTransition previous.content next.content = .ok ()

theorem verifySuccessorOf_eq_ok {previous next : SignedRecoverySchedulerState} :
    next.verifySuccessorOf P previous = .ok () ↔
      next.verify P = .ok () ∧ previous.verify P = .ok () ∧ Follows P previous next := by
  unfold SignedRecoverySchedulerState.verifySuccessorOf
  simp only [bind_eq_ok, ensure_eq_ok]
  constructor
  · rintro ⟨_, hnext, _, hprevious, _, hplan, _, hrecipient, _, hgeneration, id, hid, _, hprev, _, hobserved,
      _, hlive, htransition⟩
    cases (stateId_of_verify hprevious).symm.trans hid
    exact ⟨hnext, hprevious, hplan, hrecipient, hgeneration, hprev, hobserved, hlive, htransition⟩
  · rintro ⟨hnext, hprevious, h⟩
    exact ⟨(), hnext, (), hprevious, (), h.plan, (), h.recipient, (), h.generation, _,
      stateId_of_verify hprevious, (), h.previousId, (), h.observed, (), h.live, h.transition⟩

def fileOf (P : Primitives) (s : SignedRecoverySchedulerState) : RecordFile :=
  ⟨s.content.generation, stateDigest P s, s⟩

/-- A load of the plan accepts the file of the state. -/
structure Readable (P : Primitives) (planId : Id) (s : SignedRecoverySchedulerState) : Prop where
  verifies : s.verify P = .ok ()
  size : s.toAllocvec.length ≤ maxSchedulerStateBytes
  plan : s.content.planId = planId

theorem toAllocvec_ne_nil (s : SignedRecoverySchedulerState) : s.toAllocvec ≠ [] := by
  unfold SignedRecoverySchedulerState.toAllocvec RecoverySchedulerStateContent.toAllocvec
  simp only [List.append_assoc, List.cons_append]
  exact List.cons_ne_nil _ _

theorem readRecord_of_readable (h : Readable P planId s) (hrecipient : s.content.recipientDeviceId = recipient) :
    readRecord P planId recipient (fileOf P s) = .ok s := by
  unfold readRecord
  simp only [ok_iff, ensure_eq_ok]
  refine ⟨(), h.size, (), ⟨toAllocvec_ne_nil s, h.size⟩, (), h.verifies, (), h.plan, (), hrecipient, _, ?_,
    (), rfl, rfl⟩
  exact bind_of_ok (stateId_of_verify h.verifies) _

theorem of_readRecord {file : RecordFile} (h : readRecord P planId recipient file = .ok s) :
    s = file.state ∧ file.state.content.recipientDeviceId = recipient := by
  unfold readRecord at h
  simp only [ok_iff, ensure_eq_ok] at h
  obtain ⟨_, -, _, -, _, -, _, -, _, hrecipient, _, -, _, -, rfl⟩ := h
  exact ⟨rfl, hrecipient⟩

variable {files : List RecordFile} {records : List SignedRecoverySchedulerState}

theorem readRecords_of_readable (h : ∀ file ∈ files, readRecord P planId recipient file = .ok file.state)
    (hlength : records.length + files.length ≤ maxSchedulerStateRecords) :
    readRecords P planId recipient files records = .ok (records ++ files.map RecordFile.state) := by
  induction files generalizing records with
  | nil => simp [readRecords]
  | cons file files ih =>
    rw [List.length_cons] at hlength
    have hroom : records.length < maxSchedulerStateRecords := by omega
    rw [readRecords, bind_of_ok (ensure_of hroom), bind_of_ok (h file List.mem_cons_self),
      ih (fun f hf => h f (.tail _ hf)) (by simp; omega)]
    simp

theorem readRecords_of_too_many (h : ∀ file ∈ files, readRecord P planId recipient file = .ok file.state)
    (hrecords : records.length ≤ maxSchedulerStateRecords)
    (hlength : maxSchedulerStateRecords < records.length + files.length) :
    readRecords P planId recipient files records =
      .error "history recovery scheduler state exceeds 4096 records" := by
  induction files generalizing records with
  | nil =>
    rw [List.length_nil] at hlength
    omega
  | cons file files ih =>
    rw [List.length_cons] at hlength
    by_cases hroom : records.length < maxSchedulerStateRecords
    · rw [readRecords, bind_of_ok (ensure_of hroom), bind_of_ok (h file List.mem_cons_self)]
      exact ih (fun f hf => h f (.tail _ hf)) (by simp; omega) (by simp; omega)
    · rw [readRecords, Except.bind_eq_error]
      exact Or.inl (Except.failIf_eq_error.mpr ⟨hroom, rfl⟩)

theorem of_readRecords {out : List SignedRecoverySchedulerState}
    (h : readRecords P planId recipient files records = .ok out) :
    (∀ file ∈ files, file.state.content.recipientDeviceId = recipient) ∧ (records.length ≤ maxSchedulerStateRecords →
        records.length + files.length ≤ maxSchedulerStateRecords) := by
  induction files generalizing records with
  | nil => simp
  | cons file files ih =>
    simp only [readRecords, bind_eq_ok, ensure_eq_ok] at h
    obtain ⟨_, hroom, state, hstate, hrest⟩ := h
    obtain ⟨hrecipients, hlength⟩ := ih hrest
    refine ⟨?_, fun _ => ?_⟩
    · rintro f (_ | ⟨_, hf⟩)
      · exact (of_readRecord hstate).2
      · exact hrecipients f hf
    · have := hlength (by simp; omega)
      simp at this ⊢
      omega

/-- The states of a plan as they were stored. There may be one more of them than a load reads. -/
structure Sound (P : Primitives) (planId : Id) (chain : List SignedRecoverySchedulerState) : Prop where
  linked : chain.IsChain fun previous next => next.verifySuccessorOf P previous = .ok ()
  first : ∀ s ∈ chain.head?, s.content.generation = 0
  readable : ∀ s ∈ chain, Readable P planId s
  length : chain.length ≤ maxSchedulerStateRecords + 1

namespace Sound

theorem follows (h : Sound P planId chain) : chain.IsChain (Follows P) :=
  h.linked.imp fun _ _ hnext => (verifySuccessorOf_eq_ok.mp hnext).2.2

theorem generation (h : Sound P planId chain) {i : Nat} (hi : i < chain.length) :
    chain[i].content.generation = i := by
  induction i with
  | zero =>
    refine h.first _ ?_
    rw [List.head?_eq_getElem?]
    simp
  | succ i ih =>
    have hnext := (List.isChain_iff_getElem.mp h.follows i hi).generation
    have hlength := h.length
    rw [hnext, ih (by omega)]
    unfold saturatingAdd
    unfold maxSchedulerStateRecords at hlength
    omega

theorem increasing (h : Sound P planId chain) :
    chain.Pairwise fun a b => a.content.generation < b.content.generation := by
  rw [List.pairwise_iff_getElem]
  intro i j hi hj hij
  rw [h.generation hi, h.generation hj]
  exact hij

theorem recipients (h : Sound P planId chain) : ∃ recipient, ∀ s ∈ chain,
    s.content.recipientDeviceId = recipient := by
  cases chain with
  | nil => exact ⟨0, by simp⟩
  | cons first rest =>
    have hpairs : (first :: rest).Pairwise fun a b : SignedRecoverySchedulerState =>
        b.content.recipientDeviceId = a.content.recipientDeviceId :=
      Chain.pairwise_of_isChain (fun _ _ hf => hf.recipient) (fun _ _ _ hab hbc => hbc.trans hab) h.follows
    refine ⟨first.content.recipientDeviceId, ?_⟩
    rintro s (_ | ⟨_, hs⟩)
    · rfl
    · exact List.rel_of_pairwise_cons hpairs hs

/-- A plan has no record exactly where its directory is missing or empty. -/
theorem load_eq (hrecords : t.records planId = chain.map (fileOf P)) :
    loadRecoverySchedulerState P listing t planId recipient = (do
        let records ← readRecords P planId recipient (listing.order (chain.map (fileOf P))) []
        let records := sortByGeneration records
        match records.head? with
        | none => return none
        | some first =>
          ensure (first.content.generation = 0)
            "history recovery scheduler chain is missing its initial state"
          Chain.forPairs (fun previous next => next.verifySuccessorOf P previous) records
          return records.getLast?) := by
  unfold loadRecoverySchedulerState
  unfold StateDirectory.records at hrecords
  cases hplan : t planId with
  | none =>
    rw [hplan] at hrecords
    rw [← hrecords]
    have hnil : listing.order [] = [] := List.perm_nil.mp (listing.perm [])
    change _ = Except.bind (readRecords P planId recipient (listing.order []) []) _
    rw [hnil]
    rfl
  | some directory =>
    rw [hplan] at hrecords
    rw [← hrecords]
    rfl

theorem readRecord_listing (h : Sound P planId chain)
    (hrecipients : ∀ s ∈ chain, s.content.recipientDeviceId = recipient) (listing : Listing) :
    ∀ file ∈ listing.order (chain.map (fileOf P)), readRecord P planId recipient file = .ok file.state := by
  intro file hfile
  obtain ⟨s, hs, rfl⟩ := List.mem_map.mp ((listing.perm _).mem_iff.mp hfile)
  exact readRecord_of_readable (h.readable s hs) (hrecipients s hs)

theorem map_state_fileOf (chain : List SignedRecoverySchedulerState) :
    (chain.map (fileOf P)).map RecordFile.state = chain := by
  rw [List.map_map]
  exact List.map_id _

theorem load (h : Sound P planId chain) (hrecords : t.records planId = chain.map (fileOf P))
    (hlength : chain.length ≤ maxSchedulerStateRecords)
    (hrecipients : ∀ s ∈ chain, s.content.recipientDeviceId = recipient) (listing : Listing) :
    loadRecoverySchedulerState P listing t planId recipient = .ok chain.getLast? := by
  have hperm := listing.perm (chain.map (fileOf P))
  have hread : readRecords P planId recipient (listing.order (chain.map (fileOf P))) [] = .ok _ :=
    readRecords_of_readable (h.readRecord_listing hrecipients listing)
      (by rw [hperm.length_eq]; simpa using hlength)
  have hsort : sortByGeneration ([] ++ (listing.order (chain.map (fileOf P))).map RecordFile.state) = chain := by
    refine Chain.insertionSort_eq h.increasing ?_
    have hstates := hperm.map RecordFile.state
    rwa [map_state_fileOf] at hstates
  rw [load_eq hrecords, bind_of_ok hread]
  simp only [hsort]
  cases hhead : chain.head? with
  | none =>
    rw [List.head?_eq_none_iff.mp hhead]
    rfl
  | some first =>
    change Except.bind (ensure _ _) _ = _
    rw [show ensure (first.content.generation = 0) _ = .ok () from ensure_of (h.first first hhead)]
    change Except.bind (Chain.forPairs _ chain) _ = _
    rw [Chain.forPairs_eq_ok.mpr h.linked]
    rfl

theorem load_of_too_many (h : Sound P planId chain) (hrecords : t.records planId = chain.map (fileOf P))
    (hlength : maxSchedulerStateRecords < chain.length)
    (hrecipients : ∀ s ∈ chain, s.content.recipientDeviceId = recipient) (listing : Listing) :
    loadRecoverySchedulerState P listing t planId recipient =
      .error "history recovery scheduler state exceeds 4096 records" := by
  have hperm := listing.perm (chain.map (fileOf P))
  rw [load_eq hrecords, Except.bind_eq_error]
  refine Or.inl (readRecords_of_too_many (h.readRecord_listing hrecipients listing) (by simp) ?_)
  rw [hperm.length_eq]
  simpa using hlength

theorem of_load (h : Sound P planId chain) (hrecords : t.records planId = chain.map (fileOf P))
    {existing : Option SignedRecoverySchedulerState}
    (hload : loadRecoverySchedulerState P listing t planId recipient = .ok existing) :
    existing = chain.getLast? ∧ chain.length ≤ maxSchedulerStateRecords := by
  have hload' := hload
  rw [load_eq hrecords, bind_eq_ok] at hload'
  obtain ⟨records, hread, -⟩ := hload'
  obtain ⟨hrecipients, hlength⟩ := of_readRecords hread
  have hperm := listing.perm (chain.map (fileOf P))
  have hle : chain.length ≤ maxSchedulerStateRecords := by
    have := hlength (by simp)
    rw [hperm.length_eq] at this
    simpa using this
  have hall : ∀ s ∈ chain, s.content.recipientDeviceId = recipient := fun s hs =>
    hrecipients (fileOf P s) (hperm.mem_iff.mpr (List.mem_map_of_mem hs))
  exact ⟨Except.ok.inj (hload.symm.trans (h.load hrecords hle hall listing)), hle⟩

end Sound
end Kilogram.Scheduler
