import Kilogram.Scheduler.Storing

/-!
# The scheduler goes on

A chain with room for one more state can always be ended: a cancellation or a completion is signed,
stored and loaded, whatever the clock says.
-/

namespace Kilogram.Scheduler
open Crash Crash.Prog
open Except (ensure_eq_ok ensure_of ok_iff bind_of_ok)
variable {P : Primitives} {planId : Id} {s : SignedRecoverySchedulerState}
  {chain : List SignedRecoverySchedulerState} {t : StateDirectory}

theorem length_varint_le (n : Nat) : (Postcard.varint n).length ≤ 10 := by
  have hbytes (size n : Nat) : (Postcard.varintBytes size n).length ≤ size := by
    induction size generalizing n with
    | zero => simp [Postcard.varintBytes]
    | succ size ih =>
      unfold Postcard.varintBytes
      split_ifs
      · simp
      · simpa using ih (n / 128)
  exact hbytes 10 n

theorem length_encodeOptionalId_le (id : Option Id) : (encodeOptionalId id).length ≤ 33 := by
  cases id with
  | none => simp [encodeOptionalId]
  | some id => simp [encodeOptionalId, Id.bytes]

/-- A state with a signature of a device is far below the bound. -/
theorem length_toAllocvec_le (h : s.signature.length = 64) : s.toAllocvec.length ≤ maxSchedulerStateBytes := by
  have hid := length_encodeOptionalId_le s.content.previousStateId
  have h₁ := length_varint_le s.content.generation
  have h₂ := length_varint_le s.content.transition.variant
  have h₃ := length_varint_le s.content.lifecycle.variant
  have h₄ := length_varint_le s.content.totalAttempts
  have h₅ := length_varint_le s.content.consecutiveFailures
  have h₆ := length_varint_le s.content.lastObservedUnixSeconds
  have h₇ := length_varint_le s.content.nextAttemptAtUnixSeconds
  have h₈ := length_varint_le s.content.scheduledDelaySeconds
  have h₉ := length_varint_le s.signature.length
  unfold SignedRecoverySchedulerState.toAllocvec RecoverySchedulerStateContent.toAllocvec
    Postcard.bytes maxSchedulerStateBytes
  simp only [List.length_append, List.length_singleton, Id.bytes, Bytes.length_ofNat]
  omega

section
variable {identity : DeviceIdentity P} {transition : RecoverySchedulerTransition}
  {lifecycle : RecoverySchedulerLifecycle} {attempts failures observed next delay : Nat}

theorem sign_of {c : RecoverySchedulerStateContent} (hvalid : validateContent c = .ok ())
    (hdevice : identity.deviceId = c.recipientDeviceId) :
    ∃ s', SignedRecoverySchedulerState.sign identity c = .ok s' ∧ s'.content = c ∧
      s'.signature.length = 64 ∧ s'.verify P = .ok () := by
  have hverify : SignedRecoverySchedulerState.verify P ⟨c, identity.sign (signingBytes c)⟩ = .ok () := by
    unfold SignedRecoverySchedulerState.verify
    rw [bind_of_ok hvalid]
    refine ensure_of ?_
    change P.verify c.recipientDeviceId _ _ = true
    rw [← hdevice]
    exact identity.verify_sign _
  refine ⟨⟨c, identity.sign (signingBytes c)⟩, ?_, rfl, identity.length_sign _, hverify⟩
  unfold SignedRecoverySchedulerState.sign
  rw [bind_of_ok hvalid, bind_of_ok (ensure_of hdevice)]
  exact bind_of_ok hverify _

def nextContent (P : Primitives) (s : SignedRecoverySchedulerState) (transition : RecoverySchedulerTransition)
    (lifecycle : RecoverySchedulerLifecycle) (attempts failures observed next delay : Nat) :
    RecoverySchedulerStateContent :=
  ⟨schedulerStateVersion, s.content.planId, s.content.recipientDeviceId, s.content.generation + 1,
    some (stateDigest P s), transition, lifecycle, attempts, failures, observed, next, delay⟩

theorem validateContent_next (hnext : observed + delay = next)
    (hdelay : delay ≤ maxRecoveryAttemptLeaseSeconds) (htransition : transition ≠ .initialized) :
    validateContent (nextContent P s transition lifecycle attempts failures observed next delay) = .ok () := by
  unfold validateContent nextContent
  simp only [ok_iff, ensure_eq_ok]
  refine ⟨(), trivial, (), by omega, (), by omega, (), hdelay, ?_⟩
  rw [if_neg (Nat.succ_ne_zero _)]
  exact ensure_of ⟨by simp, htransition⟩

theorem signSuccessor_of (hverify : s.verify P = .ok ()) (hdevice : identity.deviceId = s.content.recipientDeviceId)
    (hlive : s.content.lifecycle.isTerminal = false) (hgeneration : s.content.generation + 1 < 2 ^ 64)
    (hobserved : s.content.lastObservedUnixSeconds ≤ observed) (hnext : observed + delay = next)
    (hdelay : delay ≤ maxRecoveryAttemptLeaseSeconds) (hnew : transition ≠ .initialized)
    (htransition : validateTransition s.content
      (nextContent P s transition lifecycle attempts failures observed next delay) = .ok ()) :
    ∃ s', s.signSuccessor identity transition lifecycle attempts failures observed next delay = .ok s' ∧
      s'.content = nextContent P s transition lifecycle attempts failures observed next delay ∧
      s'.toAllocvec.length ≤ maxSchedulerStateBytes ∧ s'.verifySuccessorOf P s = .ok () := by
  have hvalid : validateContent (nextContent P s transition lifecycle attempts failures observed next
      delay) = .ok () := validateContent_next hnext hdelay hnew
  obtain ⟨s', hsign, hcontent, hlength, hverify'⟩ := sign_of hvalid hdevice
  have hfollows : Follows P s s' := by
    refine ⟨?_, ?_, ?_, ?_, ?_, hlive, ?_⟩ <;> rw [hcontent]
    · rfl
    · rfl
    · change s.content.generation + 1 = min _ _
      omega
    · rfl
    · exact hobserved
    · exact htransition
  have hsuccessor := verifySuccessorOf_eq_ok.mpr ⟨hverify', hverify, hfollows⟩
  refine ⟨s', ?_, hcontent, length_toAllocvec_le hlength, hsuccessor⟩
  unfold SignedRecoverySchedulerState.signSuccessor
  unfold nextContent at hsign
  rw [bind_of_ok hverify, bind_of_ok (ensure_of hdevice),
    bind_of_ok (checkedAdd_eq_ok.mpr ⟨hgeneration, rfl⟩), bind_of_ok (stateId_of_verify hverify),
    bind_of_ok hsign]
  exact bind_of_ok hsuccessor _

theorem finish_of (hverify : s.verify P = .ok ()) (hdevice : identity.deviceId = s.content.recipientDeviceId)
    (hlive : s.content.lifecycle.isTerminal = false) (hgeneration : s.content.generation + 1 < 2 ^ 64)
    (hlast : transition = .cancelled ∧ lifecycle = .cancelled ∨
      transition = .completed ∧ lifecycle = .completed) (now : Nat) :
    ∃ s', s.finish identity transition lifecycle now = .ok s' ∧
      s'.toAllocvec.length ≤ maxSchedulerStateBytes ∧ s'.verifySuccessorOf P s = .ok () := by
  have hnew : transition ≠ .initialized := by
    rcases hlast with ⟨rfl, -⟩ | ⟨rfl, -⟩ <;> decide
  have htransition : validateTransition s.content (nextContent P s transition lifecycle
      s.content.totalAttempts s.content.consecutiveFailures (max now s.content.lastObservedUnixSeconds)
      (max now s.content.lastObservedUnixSeconds) 0) = .ok () := by
    rcases hlast with ⟨rfl, rfl⟩ | ⟨rfl, rfl⟩
    · exact ensure_of ⟨rfl, rfl, rfl, rfl⟩
    · exact ensure_of ⟨rfl, rfl, rfl, rfl⟩
  obtain ⟨s', hs', -, hsize, hsuccessor⟩ := signSuccessor_of hverify hdevice hlive hgeneration
    (Nat.le_max_right _ _) rfl (Nat.zero_le _) hnew htransition
  exact ⟨s', (bind_of_ok (ensure_of hlive) _).trans hs', hsize, hsuccessor⟩

end

theorem Keeps.store (h : Keeps P t s.content.planId chain) (hlength : chain.length ≤ maxSchedulerStateRecords)
    (hrecipients : ∀ a ∈ chain, a.content.recipientDeviceId = s.content.recipientDeviceId)
    (hverify : s.verify P = .ok ()) (hsize : s.toAllocvec.length ≤ maxSchedulerStateBytes)
    (hnext : verifyNext P chain.getLast? s = .ok ()) (listing : Listing) :
    ∃ name t', Returns listing (persistRecoverySchedulerState P s) t name t' ∧
      Keeps P t' s.content.planId (chain ++ [s]) := by
  have haccepted : Accepted P listing t s chain.getLast? :=
    ⟨hverify, h.sound.load h.records hlength hrecipients listing, hnext, hsize⟩
  have hwp := wp_persist fun existing (ha : Accepted P listing t s existing) => h.free existing ha
  obtain ⟨name, t', hreturns, -, hplaced⟩ := wp.returns
    (hwp.mono (fun _ _ h => h) (fun _ h => h) fun _ _ hrefused => hrefused.2 _ haccepted)
  exact ⟨name, t', hreturns, h.placed haccepted hplaced⟩

theorem Keeps.store_successor (h : Keeps P t planId chain)
    (hlength : chain.length ≤ maxSchedulerStateRecords) {previous : SignedRecoverySchedulerState}
    (hlast : chain.getLast? = some previous) (hsize : s.toAllocvec.length ≤ maxSchedulerStateBytes)
    (hnext : s.verifySuccessorOf P previous = .ok ()) (listing : Listing) :
    ∃ name t', Returns listing (persistRecoverySchedulerState P s) t name t' ∧ Keeps P t' planId (chain ++ [s]) := by
  obtain ⟨hverify, -, hfollows⟩ := verifySuccessorOf_eq_ok.mp hnext
  have hmem := List.mem_of_getLast? hlast
  obtain rfl : s.content.planId = planId := hfollows.plan.trans (h.sound.readable _ hmem).plan
  obtain ⟨recipient, hrecipients⟩ := h.sound.recipients
  have hrecipient : s.content.recipientDeviceId = recipient := hfollows.recipient.trans (hrecipients _ hmem)
  refine h.store hlength (fun a ha => (hrecipients a ha).trans hrecipient.symm) hverify hsize ?_ listing
  rw [hlast]
  exact hnext

theorem Keeps.load (h : Keeps P t planId chain) (hlength : chain.length ≤ maxSchedulerStateRecords)
    {last : SignedRecoverySchedulerState} (hlast : chain.getLast? = some last) (listing : Listing) :
    loadRecoverySchedulerState P listing t planId last.content.recipientDeviceId = .ok (some last) := by
  obtain ⟨recipient, hrecipients⟩ := h.sound.recipients
  rw [hrecipients last (List.mem_of_getLast? hlast), h.sound.load h.records hlength hrecipients listing, hlast]

theorem Keeps.finish (h : Keeps P t planId chain) (hlength : chain.length < maxSchedulerStateRecords)
    {last : SignedRecoverySchedulerState} (hlast : chain.getLast? = some last)
    (hlive : last.content.lifecycle.isTerminal = false) {identity : DeviceIdentity P}
    (hdevice : identity.deviceId = last.content.recipientDeviceId)
    {transition : RecoverySchedulerTransition} {lifecycle : RecoverySchedulerLifecycle}
    (hkind : transition = .cancelled ∧ lifecycle = .cancelled ∨
      transition = .completed ∧ lifecycle = .completed) (now : Nat) (listing : Listing) :
    ∃ s name t', last.finish identity transition lifecycle now = .ok s ∧
      Returns listing (persistRecoverySchedulerState P s) t name t' ∧
      ∀ listing', loadRecoverySchedulerState P listing' t' planId last.content.recipientDeviceId = .ok (some s) := by
  have hmem := List.mem_of_getLast? hlast
  have hgeneration := h.generation_lt hmem
  unfold maxSchedulerStateRecords at hlength
  obtain ⟨s, hs, hsize, hnext⟩ := finish_of (h.sound.readable _ hmem).verifies hdevice hlive (by omega) hkind now
  obtain ⟨name, t', hreturns, hkeeps⟩ :=
    h.store_successor (by unfold maxSchedulerStateRecords; omega) hlast hsize hnext listing
  refine ⟨s, name, t', hs, hreturns, fun listing' => ?_⟩
  have hend : (chain ++ [s]).getLast? = some s := by simp
  have hload := hkeeps.load (by unfold maxSchedulerStateRecords; simp; omega) hend listing'
  rwa [(verifySuccessorOf_eq_ok.mp hnext).2.2.recipient] at hload

theorem Sound.left {before after : List SignedRecoverySchedulerState}
    (h : Sound P planId (before ++ after)) : Sound P planId before := by
  refine ⟨h.linked.left_of_append, fun s hs => h.first s ?_, fun s hs => h.readable s (by simp [hs]), ?_⟩
  · rw [List.head?_append, Option.mem_def.mp hs]
    rfl
  · have := h.length
    rw [List.length_append] at this
    omega

theorem Sound.first_content (h : Sound P planId chain) (hs : chain.head? = some s) :
    s.content.transition = .initialized ∧ s.content.lifecycle = .active ∧ s.content.totalAttempts = 0 := by
  have hverify := (h.readable s (List.mem_of_head? hs)).verifies
  unfold SignedRecoverySchedulerState.verify validateContent at hverify
  simp only [ok_iff, ensure_eq_ok] at hverify
  obtain ⟨_, ⟨_, -, _, -, _, -, _, -, hinitial⟩, -⟩ := hverify
  rw [if_pos (h.first s hs)] at hinitial
  obtain ⟨-, htransition, hlifecycle, hattempts, -, -⟩ := ensure_eq_ok.mp hinitial
  exact ⟨htransition, hlifecycle, hattempts⟩

/-- What a transition does to the attempts. -/
inductive Attempts (previous next : RecoverySchedulerStateContent) : Prop
  | started (htransition : next.transition = .attemptStarted) (hfrom : previous.lifecycle = .active)
      (hto : next.lifecycle = .attempting)
      (hattempts : next.totalAttempts = saturatingAdd 64 previous.totalAttempts 1)
  | ended (htransition : next.transition = .attemptFailed ∨ next.transition = .attemptProgressed)
      (hfrom : previous.lifecycle = .attempting) (hto : next.lifecycle = .active)
      (hattempts : next.totalAttempts = previous.totalAttempts)
  | finished (htransition : next.transition = .cancelled ∨ next.transition = .completed)
      (hto : next.lifecycle.isTerminal = true) (hattempts : next.totalAttempts = previous.totalAttempts)

theorem attempts_of_validate {previous next : RecoverySchedulerStateContent}
    (h : validateTransition previous next = .ok ()) : Attempts previous next := by
  unfold validateTransition at h
  cases htransition : next.transition with
  | initialized =>
    rw [htransition] at h
    cases h
  | attemptStarted =>
    rw [htransition] at h
    obtain ⟨hfrom, hto, hattempts, -, -⟩ := ensure_eq_ok.mp h
    exact .started htransition hfrom hto hattempts
  | attemptFailed =>
    rw [htransition] at h
    simp only [ok_iff, ensure_eq_ok] at h
    obtain ⟨_, ⟨hfrom, hto, hattempts, -⟩, -⟩ := h
    exact .ended (.inl htransition) hfrom hto hattempts
  | attemptProgressed =>
    rw [htransition] at h
    simp only [ok_iff, ensure_eq_ok] at h
    obtain ⟨_, ⟨hfrom, hto, hattempts, -⟩, -⟩ := h
    exact .ended (.inr htransition) hfrom hto hattempts
  | cancelled =>
    rw [htransition] at h
    obtain ⟨hto, hattempts, -, -⟩ := ensure_eq_ok.mp h
    exact .finished (.inl htransition) (by rw [hto]; rfl) hattempts
  | completed =>
    rw [htransition] at h
    obtain ⟨hto, hattempts, -, -⟩ := ensure_eq_ok.mp h
    exact .finished (.inr htransition) (by rw [hto]; rfl) hattempts

/-- An attempt is open exactly where the last state says so. -/
theorem Sound.openAttempts_eq (h : Sound P planId chain) : openAttempts chain =
      if ∃ s ∈ chain.getLast?, s.content.lifecycle = .attempting then 1 else 0 := by
  induction chain using List.reverseRecOn with
  | nil => rfl
  | append_singleton chain s ih =>
    have hbefore := ih h.left
    have hlast : (∃ s' ∈ (chain ++ [s]).getLast?, s'.content.lifecycle = .attempting) ↔
        s.content.lifecycle = .attempting := by simp
    simp only [hlast]
    unfold openAttempts at hbefore ⊢
    rw [List.foldl_append, hbefore, List.foldl_cons, List.foldl_nil]
    cases hprevious : chain.getLast? with
    | none =>
      obtain rfl := List.getLast?_eq_none_iff.mp hprevious
      obtain ⟨htransition, hlifecycle, -⟩ := h.first_content (s := s) rfl
      simp [htransition, hlifecycle]
    | some previous =>
      have hfollows := (List.isChain_append.mp h.follows).2.2 previous hprevious s rfl
      simp only [Option.mem_def, Option.some.injEq, exists_eq_left']
      cases attempts_of_validate hfollows.transition with
      | started htransition hfrom hto => simp [htransition, hfrom, hto]
      | ended htransition hfrom hto =>
        rcases htransition with htransition | htransition <;> simp [htransition, hfrom, hto]
      | finished htransition hto =>
        have hclosed : s.content.lifecycle ≠ .attempting := by
          intro hopen
          rw [hopen] at hto
          cases hto
        rcases htransition with htransition | htransition <;> simp [htransition, hclosed]

theorem Sound.attempts_lt (h : Sound P planId chain) {i : Nat} (hi : i < chain.length) :
    chain[i].content.totalAttempts ≤ 2 ^ 64 - 1 := by
  induction i with
  | zero =>
    rw [(h.first_content (s := chain[0]) (by rw [List.head?_eq_getElem?]; simp)).2.2]
    exact Nat.zero_le _
  | succ i ih =>
    have hbefore := ih (by omega)
    have hnext := attempts_of_validate (List.isChain_iff_getElem.mp h.follows i hi).transition
    cases hnext with
    | started _ _ _ hattempts =>
      rw [hattempts]
      exact Nat.min_le_right _ _
    | ended _ _ _ hattempts | finished _ _ hattempts => rwa [hattempts]

/-- Neither the observed time nor the number of attempts goes back. -/
theorem Sound.monotone (h : Sound P planId chain) : chain.Pairwise fun a b =>
    a.content.lastObservedUnixSeconds ≤ b.content.lastObservedUnixSeconds ∧
      a.content.totalAttempts ≤ b.content.totalAttempts := by
  refine Chain.pairwise_of_isChain (R := fun a b : SignedRecoverySchedulerState =>
    a.content.lastObservedUnixSeconds ≤ b.content.lastObservedUnixSeconds ∧
      a.content.totalAttempts ≤ b.content.totalAttempts) (fun _ _ h => h)
    (fun _ _ _ hab hbc => ⟨hab.1.trans hbc.1, hab.2.trans hbc.2⟩) ?_
  rw [List.isChain_iff_getElem]
  intro i hi
  have hfollows := List.isChain_iff_getElem.mp h.follows i hi
  refine ⟨hfollows.observed, ?_⟩
  cases attempts_of_validate hfollows.transition with
  | started _ _ _ hattempts =>
    rw [hattempts]
    exact le_min (Nat.le_succ _) (h.attempts_lt (by omega))
  | ended _ _ _ hattempts | finished _ _ hattempts => exact hattempts.ge

/-- Whatever is stored and wherever the power goes, the last stored state of a plan is loaded, unless more
states were stored than a load reads: then no load succeeds. If there is room for one more, a state that is not
terminal can be cancelled or completed at any time. At most one attempt is open, and neither the
observed time nor the number of attempts goes back. -/
theorem scheduler_never_wedges (P : Primitives) (calls : List Storing) (planId : Id) :
    (∃ recipient, (∀ s ∈ stored P planId calls, s.content.recipientDeviceId = recipient) ∧
      ∀ listing, loadRecoverySchedulerState P listing ((service P).after calls) planId recipient =
        if (stored P planId calls).length ≤ maxSchedulerStateRecords then .ok (stored P planId calls).getLast?
        else .error "history recovery scheduler state exceeds 4096 records") ∧
    ((stored P planId calls).length < maxSchedulerStateRecords →
      ∀ last, (stored P planId calls).getLast? = some last → last.content.lifecycle.isTerminal = false →
      ∀ identity : DeviceIdentity P, identity.deviceId = last.content.recipientDeviceId →
      ∀ now listing, (∃ s name t', last.cancel identity now = .ok s ∧
          Returns listing (persistRecoverySchedulerState P s) ((service P).after calls) name t' ∧
          ∀ listing', loadRecoverySchedulerState P listing' t' planId last.content.recipientDeviceId = .ok (some s)) ∧
        ∃ s name t', last.complete identity now = .ok s ∧
          Returns listing (persistRecoverySchedulerState P s) ((service P).after calls) name t' ∧
          ∀ listing', loadRecoverySchedulerState P listing' t' planId last.content.recipientDeviceId = .ok (some s)) ∧
    (openAttempts (stored P planId calls) = 0 ∨ openAttempts (stored P planId calls) = 1) ∧
    (stored P planId calls).Pairwise fun a b =>
      a.content.lastObservedUnixSeconds ≤ b.content.lastObservedUnixSeconds ∧
        a.content.totalAttempts ≤ b.content.totalAttempts := by
  have h := keeps_after (P := P) calls planId
  refine ⟨?_, fun hlength last hlast hlive identity hdevice now listing => ?_, ?_, h.sound.monotone⟩
  · obtain ⟨recipient, hrecipients⟩ := h.sound.recipients
    refine ⟨recipient, hrecipients, fun listing => ?_⟩
    split_ifs with hlength
    · exact h.sound.load h.records hlength hrecipients listing
    · exact h.sound.load_of_too_many h.records (Nat.not_le.mp hlength) hrecipients listing
  · exact ⟨h.finish hlength hlast hlive hdevice (.inl ⟨rfl, rfl⟩) now listing,
      h.finish hlength hlast hlive hdevice (.inr ⟨rfl, rfl⟩) now listing⟩
  · rw [h.sound.openAttempts_eq]
    split_ifs
    · exact .inr rfl
    · exact .inl rfl

section Wedge
variable {identity : DeviceIdentity P}

/-- An attempt starts and fails in the first second, without a delay. -/
def failing (identity : DeviceIdentity P) (s : SignedRecoverySchedulerState) : Result SignedRecoverySchedulerState :=
  if s.content.lifecycle = .active then s.startAttempt identity 0 1
  else s.recordFailure identity 0 ⟨0, 0, Nat.zero_le _, Nat.zero_le _, Nat.le_refl _⟩

/-- The next attempt may start, or one is under way. -/
structure Failing (s : SignedRecoverySchedulerState) : Prop where
  observed : s.content.lastObservedUnixSeconds = 0
  attempts : s.content.totalAttempts ≤ s.content.generation
  failures : s.content.consecutiveFailures ≤ s.content.generation
  ready : s.content.lifecycle = .active ∧ s.content.nextAttemptAtUnixSeconds = 0 ∨ s.content.lifecycle = .attempting

theorem Failing.step (h : Failing s) (hverify : s.verify P = .ok ())
    (hdevice : identity.deviceId = s.content.recipientDeviceId)
    (hgeneration : s.content.generation ≤ maxSchedulerStateRecords) :
    ∃ s', failing identity s = .ok s' ∧ Failing s' ∧ s'.toAllocvec.length ≤ maxSchedulerStateBytes ∧
      s'.verifySuccessorOf P s = .ok () := by
  have hattempts := h.attempts
  have hfailures := h.failures
  have hobserved := h.observed
  unfold maxSchedulerStateRecords at hgeneration
  unfold failing
  rcases h.ready with ⟨hactive, hready⟩ | hattempting
  · have htransition : validateTransition s.content (nextContent P s .attemptStarted .attempting
        (s.content.totalAttempts + 1) s.content.consecutiveFailures 0 1 1) = .ok () := by
      refine ensure_of ⟨hactive, rfl, ?_, rfl, Nat.one_pos⟩
      change s.content.totalAttempts + 1 = min _ _
      omega
    have hlease : 1 ≤ maxRecoveryAttemptLeaseSeconds := by decide
    have hnew : RecoverySchedulerTransition.attemptStarted ≠ .initialized := by decide
    obtain ⟨s', hs', hcontent, hsize, hnext⟩ := signSuccessor_of hverify hdevice (by rw [hactive]; rfl)
      (by omega) hobserved.le rfl hlease hnew htransition
    refine ⟨s', ?_, ?_, hsize, hnext⟩
    · rw [if_pos hactive]
      unfold SignedRecoverySchedulerState.startAttempt
      have hnow : s.readiness 0 = .ready := by
        unfold SignedRecoverySchedulerState.readiness
        simp only [hactive, hobserved, hready]
        rfl
      rw [bind_of_ok (ensure_of hnow), bind_of_ok (ensure_of Nat.one_pos),
        bind_of_ok (checkedAdd_eq_ok.mpr ⟨by decide, rfl⟩),
        bind_of_ok (checkedAdd_eq_ok.mpr ⟨by omega, rfl⟩)]
      exact hs'
    · constructor <;> rw [hcontent]
      · rfl
      · exact Nat.succ_le_succ hattempts
      · exact Nat.le_succ_of_le hfailures
      · exact .inr rfl
  · have hnotActive : s.content.lifecycle ≠ .active := by
      rw [hattempting]
      decide
    have htransition : validateTransition s.content (nextContent P s .attemptFailed .active
        s.content.totalAttempts (s.content.consecutiveFailures + 1) 0 0 0) = .ok () := by
      refine (bind_of_ok (ensure_of ⟨hattempting, rfl, rfl, ?_⟩) _).trans (ensure_of (Nat.zero_le _))
      change s.content.consecutiveFailures + 1 = min _ _
      omega
    have hnew : RecoverySchedulerTransition.attemptFailed ≠ .initialized := by decide
    obtain ⟨s', hs', hcontent, hsize, hnext⟩ := signSuccessor_of hverify hdevice (by rw [hattempting]; rfl)
      (by omega) hobserved.le rfl (Nat.zero_le _) hnew htransition
    refine ⟨s', ?_, ?_, hsize, hnext⟩
    · rw [if_neg hnotActive]
      unfold SignedRecoverySchedulerState.recordFailure
      rw [bind_of_ok (ensure_of hattempting), bind_of_ok (ensure_of hobserved.le),
        bind_of_ok (checkedAdd_eq_ok.mpr ⟨by omega, rfl⟩)]
      have hnow : 0 + 0 < 2 ^ 64 := by decide
      exact (bind_of_ok (checkedAdd_eq_ok.mpr ⟨hnow, rfl⟩) _).trans hs'
    · constructor <;> rw [hcontent]
      · rfl
      · exact Nat.le_succ_of_le hattempts
      · exact Nat.succ_le_succ hfailures
      · exact .inl ⟨rfl, rfl⟩

def storingAll (listing : Listing) (states : List SignedRecoverySchedulerState) : List Storing :=
  states.map fun s => ⟨s, listing, none⟩

/-- All of the states were stored, each by a writer that returned. -/
structure AllStored (P : Primitives) (planId : Id) (listing : Listing)
    (states : List SignedRecoverySchedulerState) : Prop where
  answered : ∀ n call, (storingAll listing states)[n]? = some call →
    ∃ name, (service P).answer ((storingAll listing states).take n) call = .ok name
  stored : stored P planId (storingAll listing states) = states

theorem AllStored.concat {listing : Listing} (h : AllStored P planId listing chain)
    (hstore : ∃ name t', Returns listing (persistRecoverySchedulerState P s)
      ((service P).after (storingAll listing chain)) name t' ∧ Keeps P t' planId (chain ++ [s])) :
    AllStored P planId listing (chain ++ [s]) := by
  obtain ⟨name, t', hreturns, hkeeps⟩ := hstore
  have hserve : (service P).serve ⟨s, listing, none⟩ ((service P).after (storingAll listing chain)) =
      (.ok name, t') :=
    congrArg (fun r : Except (Stop String) (Nat × Id) × Machine StateDirectory => (r.1, r.2.disk)) hreturns
  have hcalls : storingAll listing (chain ++ [s]) = storingAll listing chain ++ [⟨s, listing, none⟩] :=
    List.map_append
  have hafter : (service P).after (storingAll listing (chain ++ [s])) = t' := by
    rw [hcalls, Service.after_concat, hserve]
  rw [← hafter] at hkeeps
  refine ⟨fun n call hcall => ?_, ?_⟩
  · rw [hcalls] at hcall ⊢
    rcases Nat.lt_or_ge n (storingAll listing chain).length with hn | hn
    · rw [List.getElem?_append_left hn] at hcall
      rw [List.take_append_of_le_length hn.le]
      exact h.answered n call hcall
    · rw [List.getElem?_append_right hn, List.getElem?_singleton] at hcall
      split_ifs at hcall with hn'
      cases hcall
      rw [show n = (storingAll listing chain).length by omega, List.take_left]
      exact ⟨name, congrArg Prod.fst hserve⟩
  · -- The records are the files of both lists.
    have hfiles := (keeps_after (P := P) (storingAll listing (chain ++ [s])) planId).records.symm.trans
      hkeeps.records
    exact List.map_injective_iff.mpr (fun _ _ h => congrArg RecordFile.state h) hfiles

theorem exists_failing_run (identity : DeviceIdentity P) (planId : Id) (listing : Listing) {n : Nat}
    (hn : n ≤ maxSchedulerStateRecords) : ∃ states first last, states.length = n + 1 ∧
      SignedRecoverySchedulerState.initializeState identity planId 0 = .ok first ∧
      states.head? = some first ∧ states.getLast? = some last ∧
      states.IsChain (fun a b => failing identity a = .ok b) ∧
      first.content.recipientDeviceId = identity.deviceId ∧ Failing last ∧
      AllStored P planId listing states := by
  induction n with
  | zero =>
    have hvalid : validateContent ⟨schedulerStateVersion, planId, identity.deviceId, 0, none, .initialized,
        .active, 0, 0, 0, 0, 0⟩ = .ok () := rfl
    obtain ⟨first, hfirst, hcontent, hlength, hverify⟩ := sign_of hvalid (rfl : identity.deviceId = _)
    obtain rfl : first.content.planId = planId := by rw [hcontent]
    have hnone : AllStored P first.content.planId listing [] := ⟨by simp [storingAll], rfl⟩
    have hkeeps := keeps_after (P := P) [] first.content.planId
    refine ⟨[first], first, first, rfl, hfirst, rfl, rfl, List.isChain_singleton _, by rw [hcontent], ?_,
      hnone.concat (hkeeps.store (Nat.zero_le _) (by simp [stored, storedFrom]) hverify
        (length_toAllocvec_le hlength) (ensure_of ?_) listing)⟩
    · constructor <;> rw [hcontent]
      exact .inl ⟨rfl, rfl⟩
    · rw [hcontent]
      exact ⟨rfl, rfl⟩
  | succ n ih =>
    obtain ⟨states, first, last, hlength, hfirst, hhead, hlast, hchain, hdevice, hfailing, hall⟩ := ih (by omega)
    have hkeeps := keeps_after (P := P) (storingAll listing states) planId
    rw [hall.stored] at hkeeps
    have hmem := List.mem_of_getLast? hlast
    obtain ⟨recipient, hrecipients⟩ := hkeeps.sound.recipients
    have hdeviceLast : identity.deviceId = last.content.recipientDeviceId := by
      rw [← hdevice, hrecipients first (List.mem_of_head? hhead), hrecipients last hmem]
    have hgeneration := hkeeps.generation_lt hmem
    obtain ⟨s, hs, hfailing', hsize, hnext⟩ := hfailing.step
      (hkeeps.sound.readable last hmem).verifies hdeviceLast (by omega)
    refine ⟨states ++ [s], first, s, by simp [hlength], hfirst, ?_, by simp, ?_, hdevice, hfailing',
      hall.concat (hkeeps.store_successor (by omega) hlast hsize hnext listing)⟩
    · rw [List.head?_append, hhead]
      rfl
    · refine hchain.append (List.isChain_singleton s) ?_
      rintro a ha b (_ | ⟨⟩)
      cases hlast.symm.trans ha
      exact hs

end Wedge

section Samples

/-- A scheme that accepts every signature of the right length. -/
def samplePrimitives : Primitives := ⟨fun _ _ signature => signature.length = 64, fun _ => 0⟩

def sampleIdentity : DeviceIdentity samplePrimitives := ⟨3, fun _ => List.replicate 64 0, fun _ => rfl, fun _ => rfl⟩

def sampleListing : Listing := ⟨fun files => files, fun files => List.Perm.refl files⟩

/-- A first state is stored, and can be cancelled with a clock that has gone back. -/
theorem scheduler_never_wedges_sample :
    ∃ first, SignedRecoverySchedulerState.initializeState sampleIdentity 7 100 = .ok first ∧
      stored samplePrimitives 7 [⟨first, sampleListing, none⟩] = [first] ∧
      ∃ s name t', first.cancel sampleIdentity 50 = .ok s ∧
        Returns sampleListing (persistRecoverySchedulerState samplePrimitives s)
          ((service samplePrimitives).after [⟨first, sampleListing, none⟩]) name t' ∧
        ∀ listing, loadRecoverySchedulerState samplePrimitives listing t' 7 3 = .ok (some s) := by
  refine ⟨⟨⟨schedulerStateVersion, 7, 3, 0, none, .initialized, .active, 0, 0, 100, 100, 0⟩,
    List.replicate 64 0⟩, rfl, ?_, ?_⟩
  · decide +kernel
  · have hstored : stored samplePrimitives 7 [⟨⟨⟨schedulerStateVersion, 7, 3, 0, none, .initialized, .active,
        0, 0, 100, 100, 0⟩, List.replicate 64 0⟩, sampleListing, none⟩] = [⟨⟨schedulerStateVersion, 7, 3, 0,
        none, .initialized, .active, 0, 0, 100, 100, 0⟩, List.replicate 64 0⟩] := by
      decide +kernel
    have h := (scheduler_never_wedges samplePrimitives _ 7).2.1 (by rw [hstored]; decide) _
      (by rw [hstored]; rfl) rfl sampleIdentity rfl 50 sampleListing
    exact h.1

/-- Attempts that fail, 4097 states in all: every one of them is stored, and then no load succeeds. -/
theorem one_record_too_many : ∃ states first, states.length = 4097 ∧
      SignedRecoverySchedulerState.initializeState sampleIdentity 7 0 = .ok first ∧
      states.head? = some first ∧
      states.IsChain (fun a b => (∃ now lease, a.startAttempt sampleIdentity now lease = .ok b) ∨
        ∃ now backoff, a.recordFailure sampleIdentity now backoff = .ok b) ∧
      (∀ n call, (storingAll sampleListing states)[n]? = some call → ∃ name,
        (service samplePrimitives).answer ((storingAll sampleListing states).take n) call = .ok name) ∧
      stored samplePrimitives 7 (storingAll sampleListing states) = states ∧
      ∀ listing, loadRecoverySchedulerState samplePrimitives listing
        ((service samplePrimitives).after (storingAll sampleListing states)) 7 3 =
          .error "history recovery scheduler state exceeds 4096 records" := by
  obtain ⟨states, first, last, hlength, hfirst, hhead, -, hchain, hdevice, -, hall⟩ :=
    exists_failing_run sampleIdentity 7 sampleListing (Nat.le_refl maxSchedulerStateRecords)
  have hkeeps := keeps_after (P := samplePrimitives) (storingAll sampleListing states) 7
  rw [hall.stored] at hkeeps
  obtain ⟨recipient, hrecipients⟩ := hkeeps.sound.recipients
  have hrecipient : recipient = 3 := (hrecipients first (List.mem_of_head? hhead)).symm.trans hdevice
  subst hrecipient
  refine ⟨states, first, hlength, hfirst, hhead, hchain.imp fun a b hab => ?_, hall.answered, hall.stored,
    hkeeps.sound.load_of_too_many hkeeps.records (by rw [hlength]; exact Nat.lt_succ_self _) hrecipients⟩
  unfold failing at hab
  split_ifs at hab
  · exact .inl ⟨0, 1, hab⟩
  · exact .inr ⟨0, _, hab⟩

end Samples
end Kilogram.Scheduler
