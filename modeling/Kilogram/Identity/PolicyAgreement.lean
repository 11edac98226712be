import Kilogram.Identity.Digests

/-!
# Agreement on the recovery policy

Two certificates that continue the same state are approved by majorities of the same list, so that a
device has approved both; a device that approves one request at an epoch makes the requests the same.
-/

namespace Kilogram.Identity
open Except (ok_iff pure_eq_ok failIf_eq_ok)
variable {D : Type} [DecidableEq D] {P : Primitives D}

def AccountRootRecoveryPackage.voters (p : AccountRootRecoveryPackage) : List Id :=
  p.deviceList.devices.map (·.deviceId)

variable {p : AccountRootRecoveryPackage} {device : Id} {u : Unit}
  {cs' : List (AccountRecoveryPolicyTransitionCertificate D)} {m : AccountRecoveryPolicyState D}

omit [DecidableEq D] in
theorem recoveryRosterDigest_eq_ok {d : D}
    (h : p.recoveryRosterDigest P = .ok d) : d = P.rosterDigest p.deviceList := by
  simp only [AccountRootRecoveryPackage.recoveryRosterDigest, ok_iff] at h
  obtain ⟨_, _, rfl⟩ := h
  rfl

omit [DecidableEq D] in
theorem mem_voters_of_isActiveVoter (h : p.isActiveVoter P device = true) : device ∈ p.voters := by
  unfold AccountRootRecoveryPackage.isActiveVoter at h
  split at h
  · cases h
  · next certificate hfind =>
    have hdevice : certificate.deviceId = device := by
      simpa using List.find?_some hfind
    exact List.mem_map.mpr ⟨certificate, List.mem_of_find?_eq_some hfind, hdevice⟩

/-- What an approval that was checked says about the request. -/
theorem of_verifyForRequest {a : AccountRecoveryPolicyTransitionApproval D}
    {request : AccountRecoveryPolicyTransitionRequest D} (h : a.verifyForRequest P request = .ok u) :
    P.verifyRecovery a.approverDeviceId (.approval a.content) a.signature = .ok () ∧
      a.content.requestId = P.requestId request ∧ a.content.oldEpoch = request.oldEpoch := by
  simp only [AccountRecoveryPolicyTransitionApproval.verifyForRequest,
    AccountRecoveryPolicyTransitionApproval.verifySignature, AccountRecoveryPolicyTransitionRequest.id,
    ok_iff] at h
  obtain ⟨_, ⟨_, _, hsignature⟩, _, _, _, _, _, ⟨_, _, _, _, rfl⟩, _, hmatch, _⟩ := h
  simp only [not_or, not_not] at hmatch
  exact ⟨hsignature, hmatch.1, hmatch.2.1⟩

def oldApprovers (P : Primitives D) (request : AccountRecoveryPolicyTransitionRequest D)
    (approvals : List (AccountRecoveryPolicyTransitionApproval D)) : List Id :=
  (approvals.map (·.approverDeviceId)).filter (request.oldPackage.isActiveVoter P ·)

theorem of_countApprovals {request : AccountRecoveryPolicyTransitionRequest D}
    {approvals : List (AccountRecoveryPolicyTransitionApproval D)} {distinct : List Id}
    {old new : Nat} {r : Nat × Nat}
    (h : countApprovals P request approvals distinct old new = .ok r) :
    (∀ a ∈ approvals, a.verifyForRequest P request = .ok () ∧ a.approverDeviceId ∉ distinct) ∧
      (approvals.map (·.approverDeviceId)).Nodup ∧
      r.1 = old + (oldApprovers P request approvals).length := by
  induction approvals generalizing distinct old new with
  | nil =>
    obtain rfl := pure_eq_ok.mp h
    simp [oldApprovers]
  | cons a rest ih =>
    simp only [countApprovals, ok_iff] at h
    obtain ⟨_, hverify, _, hnew, h⟩ := h
    obtain ⟨hall, hnodup, hcount⟩ := ih h
    refine ⟨?_, ?_, ?_⟩
    · intro b hb
      rcases List.mem_cons.mp hb with rfl | hb
      · exact ⟨hverify, hnew⟩
      · exact ⟨(hall b hb).1, fun hmem => (hall b hb).2 (.tail _ hmem)⟩
    · rw [List.map_cons, List.nodup_cons]
      refine ⟨?_, hnodup⟩
      intro hmem
      obtain ⟨b, hb, heq⟩ := List.mem_map.mp hmem
      exact (hall b hb).2 (heq ▸ .head _)
    · rw [hcount, oldApprovers, oldApprovers, List.map_cons, List.filter_cons]
      cases request.oldPackage.isActiveVoter P a.approverDeviceId
      · simp
      · simp only [Bool.toNat_true, if_true, List.length_cons]
        omega

/-- A certificate that was checked: a majority of the old list has approved the request. -/
structure Certified (P : Primitives D) (c : AccountRecoveryPolicyTransitionCertificate D) : Prop where
  version : c.version = recoveryPolicyVersion
  approved : ∀ a ∈ c.approvals, a.verifyForRequest P c.request = .ok ()
  distinct : (c.approvals.map (·.approverDeviceId)).Nodup
  majority : c.request.oldPackage.voters.length <
    2 * (oldApprovers P c.request c.approvals).length

variable {c c' : AccountRecoveryPolicyTransitionCertificate D}
  {s s' t t' : AccountRecoveryPolicyState D}
  {cs later : List (AccountRecoveryPolicyTransitionCertificate D)}

theorem certified_of_verify (h : c.verify P = .ok u) : Certified P c := by
  simp only [AccountRecoveryPolicyTransitionCertificate.verify, verifyAccountRecoveryPolicyTransition,
    AccountRecoveryPolicyTransitionReport.requireJointMajority, ok_iff, not_not] at h
  obtain ⟨_, hversion, _, _, _, ⟨_, _, _, _, counted, hcounted, rfl⟩, hmajority⟩ := h
  obtain ⟨hall, hnodup, hcount⟩ := of_countApprovals hcounted
  refine ⟨hversion, fun a ha => (hall a ha).1, hnodup, ?_⟩
  have hold : counted.1 ≥ c.request.oldPackage.voters.length / 2 + 1 := by
    have hlength : c.request.oldPackage.voters.length = c.request.oldPackage.deviceCount := List.length_map _
    rw [hlength]
    exact hmajority.1
  omega

/-- No device of the list that the state names has signed approvals of two requests at its epoch. A
signature that verifies was made by the device. -/
def OneRequest (P : Primitives D) (s : AccountRecoveryPolicyState D) : Prop :=
  ∀ list : AccountDeviceListSnapshot, P.rosterDigest list = s.recoveryRosterDigest →
    ∀ device ∈ list.devices.map (·.deviceId), ∀ a b : TransitionApprovalContent D, ∀ v w : Bytes,
      P.verifyRecovery device (.approval a) v = .ok () → P.verifyRecovery device (.approval b) w = .ok () →
      a.oldEpoch = s.epoch → b.oldEpoch = s.epoch → a.requestId = b.requestId

/-- What a request has in common with the state it continues. -/
structure Anchored (P : Primitives D) (s : AccountRecoveryPolicyState D)
    (r : AccountRecoveryPolicyTransitionRequest D) : Prop where
  accountId : s.accountId = r.accountId
  epoch : s.epoch = r.oldEpoch
  roster : s.recoveryRosterDigest = P.rosterDigest r.oldPackage.deviceList
  previous : s.latestTransitionId = r.previousTransitionId

theorem anchored_of_verify {r : AccountRecoveryPolicyTransitionRequest D}
    (h : s.verifyTransitionAnchor P r = .ok u) : Anchored P s r := by
  simp only [AccountRecoveryPolicyState.verifyTransitionAnchor, ok_iff, not_or, not_not] at h
  obtain ⟨_, _, _, _, _, ⟨haccount, hepoch⟩, d, hd, hroster, hprevious⟩ := h
  rw [recoveryRosterDigest_eq_ok hd] at hroster
  exact ⟨haccount, hepoch, hroster, hprevious⟩

omit [DecidableEq D] in
theorem mem_oldApprovers (h : device ∈ oldApprovers P c.request c.approvals) :
    device ∈ c.request.oldPackage.voters ∧ ∃ a ∈ c.approvals, a.approverDeviceId = device := by
  obtain ⟨hmem, hvoter⟩ := List.mem_filter.mp h
  obtain ⟨a, ha, hdevice⟩ := List.mem_map.mp hmem
  exact ⟨mem_voters_of_isActiveVoter hvoter, a, ha, hdevice⟩

/-- Majorities of one list have a device in common. -/
theorem exists_common_approver (h : Certified P c)
    (h' : Certified P c') (hlist : c'.request.oldPackage.voters = c.request.oldPackage.voters) :
    ∃ device ∈ c.request.oldPackage.voters, (∃ a ∈ c.approvals, a.approverDeviceId = device) ∧
      ∃ a ∈ c'.approvals, a.approverDeviceId = device := by
  have hcard {b : AccountRecoveryPolicyTransitionCertificate D} (hb : Certified P b) :
      (oldApprovers P b.request b.approvals).toFinset.card = (oldApprovers P b.request b.approvals).length :=
    List.toFinset_card_of_nodup (hb.distinct.filter _)
  have hsub {b : AccountRecoveryPolicyTransitionCertificate D} :
      (oldApprovers P b.request b.approvals).toFinset ⊆ b.request.oldPackage.voters.toFinset := by
    intro device hdevice
    exact List.mem_toFinset.mpr (mem_oldApprovers (List.mem_toFinset.mp hdevice)).1
  have hmajority : c.request.oldPackage.voters.toFinset.card < (oldApprovers P c.request c.approvals).toFinset.card +
        (oldApprovers P c'.request c'.approvals).toFinset.card := by
    have hle := c.request.oldPackage.voters.toFinset_card_le
    have hc := h.majority
    have hc' := h'.majority
    rw [hlist] at hc'
    rw [hcard h, hcard h']
    omega
  obtain ⟨device, hdevice⟩ := Finset.inter_nonempty_of_card_lt_card_add_card hsub (hlist ▸ hsub) hmajority
  rw [Finset.mem_inter, List.mem_toFinset, List.mem_toFinset] at hdevice
  obtain ⟨hvoter, happroved⟩ := mem_oldApprovers hdevice.1
  exact ⟨device, hvoter, happroved, (mem_oldApprovers hdevice.2).2⟩

/-- Certificates that continue states with the same list and epoch are for the same request. -/
theorem request_eq (hdigests : P.CollisionFree) (hone : OneRequest P s)
    (hroster : s'.recoveryRosterDigest = s.recoveryRosterDigest) (hepoch : s'.epoch = s.epoch)
    (h : Certified P c) (h' : Certified P c') (ha : Anchored P s c.request)
    (ha' : Anchored P s' c'.request) : c'.request = c.request := by
  have hlist : c'.request.oldPackage.deviceList = c.request.oldPackage.deviceList :=
    hdigests.rosterDigest (by rw [← ha.roster, ← ha'.roster, hroster])
  have hvoters : c'.request.oldPackage.voters = c.request.oldPackage.voters := by
    rw [AccountRootRecoveryPackage.voters, hlist]
    rfl
  obtain ⟨device, hdevice, ⟨a, hmem, rfl⟩, b, hmem', hsame⟩ := exists_common_approver h h' hvoters
  obtain ⟨hsigned, hid, hold⟩ := of_verifyForRequest (h.approved a hmem)
  obtain ⟨hsigned', hid', hold'⟩ := of_verifyForRequest (h'.approved b hmem')
  rw [hsame] at hsigned'
  have hrequests := hone c.request.oldPackage.deviceList ha.roster.symm a.approverDeviceId hdevice
    b.content a.content _ _ hsigned' hsigned (hold'.trans (ha'.epoch.symm.trans hepoch))
    (hold.trans ha.epoch.symm)
  exact hdigests.requestId (by rw [← hid, ← hid', hrequests])

theorem transitioned_eq_ok (h : AccountRecoveryPolicyState.transitioned P c = .ok s) :
    Certified P c ∧ s = ⟨recoveryPolicyVersion, c.request.accountId, c.request.newEpoch,
      P.rosterDigest c.request.newPackage.deviceList, P.certificateId c⟩ := by
  simp only [AccountRecoveryPolicyState.transitioned, AccountRecoveryPolicyTransitionCertificate.id, ok_iff] at h
  obtain ⟨_, hverify, d, hd, _, ⟨_, _, _, _, rfl⟩, rfl⟩ := h
  rw [recoveryRosterDigest_eq_ok hd]
  exact ⟨certified_of_verify hverify, rfl⟩

/-- A device follows certificates from one state to another: each continues the state it has. -/
inductive Follows (P : Primitives D) : AccountRecoveryPolicyState D →
    List (AccountRecoveryPolicyTransitionCertificate D) → AccountRecoveryPolicyState D → Prop
  | done (s : AccountRecoveryPolicyState D) : Follows P s [] s
  | next {s s' t : AccountRecoveryPolicyState D} {c : AccountRecoveryPolicyTransitionCertificate D}
      {rest : List (AccountRecoveryPolicyTransitionCertificate D)}
      (hanchor : s.verifyTransitionAnchor P c.request = .ok ())
      (hstep : AccountRecoveryPolicyState.transitioned P c = .ok s') (hrest : Follows P s' rest t) :
      Follows P s (c :: rest) t

/-- States that differ in the identifier of the last transition at most. -/
structure Alike (s s' : AccountRecoveryPolicyState D) : Prop where
  version : s'.version = s.version
  accountId : s'.accountId = s.accountId
  epoch : s'.epoch = s.epoch
  roster : s'.recoveryRosterDigest = s.recoveryRosterDigest

omit [DecidableEq D] in
theorem Alike.eq (h : Alike s s') (hlatest : s'.latestTransitionId = s.latestTransitionId) : s' = s := by
  obtain ⟨hversion, haccount, hepoch, hroster⟩ := h
  cases s
  cases s'
  simp_all

/-- One transition of two devices whose states are alike. -/
theorem Alike.step (hdigests : P.CollisionFree) (h : Alike s s') (hone : OneRequest P s)
    (ha : s.verifyTransitionAnchor P c.request = .ok ())
    (ht : AccountRecoveryPolicyState.transitioned P c = .ok t)
    (ha' : s'.verifyTransitionAnchor P c'.request = .ok ())
    (ht' : AccountRecoveryPolicyState.transitioned P c' = .ok t') :
    s' = s ∧ c'.request = c.request ∧ Alike t t' ∧ (c'.approvals = c.approvals ↔ t' = t) := by
  obtain ⟨hcertified, rfl⟩ := transitioned_eq_ok ht
  obtain ⟨hcertified', rfl⟩ := transitioned_eq_ok ht'
  have hanchored := anchored_of_verify ha
  have hanchored' := anchored_of_verify ha'
  have hrequest := request_eq hdigests hone h.roster h.epoch hcertified hcertified' hanchored hanchored'
  have hlatest : s'.latestTransitionId = s.latestTransitionId := by
    rw [hanchored.previous, hanchored'.previous, hrequest]
  refine ⟨h.eq hlatest, hrequest, ?_, fun happrovals => ?_, fun hstates => ?_⟩
  · constructor <;> simp only [hrequest]
  · have hsame : c' = c := by
      have hversion := hcertified'.version.trans hcertified.version.symm
      cases c
      cases c'
      simp_all
    rw [hsame]
  · rw [hdigests.certificateId (congrArg (·.latestTransitionId) hstates)]

/-- Every state on the way is one whose devices approve one request. -/
def OneRequestAlong (P : Primitives D) (s : AccountRecoveryPolicyState D)
    (cs : List (AccountRecoveryPolicyTransitionCertificate D)) : Prop :=
  ∀ earlier later m, cs = earlier ++ later → Follows P s earlier m → OneRequest P m

theorem OneRequestAlong.tail
    {rest : List (AccountRecoveryPolicyTransitionCertificate D)} (h : OneRequestAlong P s (c :: rest))
    (hanchor : s.verifyTransitionAnchor P c.request = .ok ())
    (hstep : AccountRecoveryPolicyState.transitioned P c = .ok s') : OneRequestAlong P s' rest := by
  intro earlier later m hsplit hfollows
  exact h (c :: earlier) later m (by rw [hsplit]; rfl) (.next hanchor hstep hfollows)

/-- Chains of the same length from states that are alike are for the same requests, and end in states
that are alike; these are the same if and only if the last certificates carry the same approvals. -/
theorem Follows.alike (hdigests : P.CollisionFree) (h : Follows P s cs t)
    (h' : Follows P s' cs' t') (halike : Alike s s') (hone : OneRequestAlong P s cs)
    (hlength : cs'.length = cs.length) :
    cs'.map (·.request) = cs.map (·.request) ∧ Alike t t' ∧ (cs ≠ [] → s' = s) ∧
      (cs ≠ [] → (cs'.getLast?.map (·.approvals) = cs.getLast?.map (·.approvals) ↔ t' = t)) := by
  induction h generalizing s' cs' with
  | done s =>
    obtain rfl := List.eq_nil_of_length_eq_zero hlength
    cases h'
    exact ⟨rfl, halike, fun h => absurd rfl h, fun h => absurd rfl h⟩
  | @next s m t c rest hanchor hstep hrest ih =>
    cases h' with
    | done => simp at hlength
    | @next _ m' _ c' rest' hanchor' hstep' hrest' =>
      have hfirst : OneRequest P s := hone [] (c :: rest) s rfl (.done s)
      obtain ⟨hsame, hrequest, hnext, happrovals⟩ := halike.step hdigests hfirst hanchor hstep hanchor' hstep'
      have hlength' : rest'.length = rest.length := Nat.succ.inj hlength
      obtain ⟨hrequests, hend, _, hlast⟩ := ih hrest' hnext (hone.tail hanchor hstep) hlength'
      refine ⟨by simp [hrequest, hrequests], hend, fun _ => hsame, fun _ => ?_⟩
      by_cases hnil : rest = []
      · -- the last transition is this one
        subst hnil
        obtain rfl := List.eq_nil_of_length_eq_zero hlength'
        cases hrest
        cases hrest'
        simpa using happrovals
      · have hnil' : rest' ≠ [] := fun h => hnil (List.eq_nil_of_length_eq_zero (by
          rw [← hlength', h]
          rfl))
        rw [List.getLast?_cons_of_ne_nil hnil', List.getLast?_cons_of_ne_nil hnil]
        exact hlast hnil

theorem Follows.append_inv (h : Follows P s (cs ++ later) t) : ∃ m, Follows P s cs m ∧ Follows P m later t := by
  induction cs generalizing s with
  | nil => exact ⟨s, .done s, h⟩
  | cons c cs ih =>
    cases h with
    | next hanchor hstep hrest =>
      obtain ⟨m, hm, hlater⟩ := ih hrest
      exact ⟨m, .next hanchor hstep hm, hlater⟩

theorem Follows.functional (h : Follows P s cs t) (h' : Follows P s cs t') : t' = t := by
  induction h with
  | done => cases h'; rfl
  | next _ hstep _ ih =>
    cases h' with
    | next _ hstep' hrest' =>
      cases hstep.symm.trans hstep'
      exact ih hrest'

theorem Follows.append (h : Follows P s cs m) (h' : Follows P m later t) : Follows P s (cs ++ later) t := by
  induction h with
  | done => exact h'
  | next hanchor hstep _ ih => exact .next hanchor hstep (ih h')

/-- Before their last transitions, two devices that followed as many certificates have held the same
states. -/
theorem Follows.earlier_eq (hdigests : P.CollisionFree) {m' : AccountRecoveryPolicyState D}
    {later' : List (AccountRecoveryPolicyTransitionCertificate D)}
    (h : Follows P s (cs ++ later) t) (h' : Follows P s (cs' ++ later') t')
    (hone : OneRequestAlong P s (cs ++ later)) (hlength : cs'.length = cs.length)
    (hlater : later'.length = later.length) (hnil : later ≠ []) (hm : Follows P s cs m)
    (hm' : Follows P s cs' m') : m' = m := by
  obtain ⟨n, hn, hrest⟩ := h.append_inv
  obtain ⟨n', hn', hrest'⟩ := h'.append_inv
  obtain rfl := hn.functional hm
  obtain rfl := hn'.functional hm'
  have honeEarlier : OneRequestAlong P s cs := by
    intro earlier rest q hsplit hq
    exact hone earlier (rest ++ later) q (by rw [hsplit, List.append_assoc]) hq
  have halike := (hm.alike hdigests hm' ⟨rfl, rfl, rfl, rfl⟩ honeEarlier hlength).2.1
  have honeLater : OneRequestAlong P m later := by
    intro earlier rest q hsplit hq
    refine hone (cs ++ earlier) rest q (by rw [hsplit, List.append_assoc]) ?_
    exact hm.append hq
  exact (hrest.alike hdigests hrest' halike honeLater hlater).2.2.1 hnil

/-- Devices that follow as many certificates from one state follow the same requests. They agree before the
last transition, and their states after it are alike, and are the same if and only if the last certificates
carry the same approvals. A request that continues the state of the one continues that of the other only if
the states are the same. -/
theorem recovery_policy_agreement (P : Primitives D) (hdigests : P.CollisionFree) (h : Follows P s cs t)
    (h' : Follows P s cs' t') (hone : OneRequestAlong P s cs) (hlength : cs'.length = cs.length) :
    cs'.map (·.request) = cs.map (·.request) ∧ Alike t t' ∧
    (∀ earlier later earlier' later' m m', cs = earlier ++ later → cs' = earlier' ++ later' →
      earlier'.length = earlier.length → later ≠ [] → Follows P s earlier m → Follows P s earlier' m' →
      m' = m) ∧
    (cs'.getLast?.map (·.approvals) = cs.getLast?.map (·.approvals) ↔ t' = t) ∧
    ∀ request, t.verifyTransitionAnchor P request = .ok () →
      (t'.verifyTransitionAnchor P request = .ok () ↔ t' = t) := by
  obtain ⟨hrequests, halike, _, hlast⟩ := h.alike hdigests h' ⟨rfl, rfl, rfl, rfl⟩ hone hlength
  refine ⟨hrequests, halike, ?_, ?_, fun request hanchor => ⟨fun hanchor' => ?_, fun heq => heq ▸ hanchor⟩⟩
  · rintro earlier later earlier' later' m m' rfl rfl hearlier hnil hm hm'
    have hlater : later'.length = later.length := by
      rw [List.length_append, List.length_append, hearlier] at hlength
      exact Nat.add_left_cancel hlength
    exact h.earlier_eq hdigests h' hone hearlier hlater hnil hm hm'
  · by_cases hnil : cs = []
    · subst hnil
      obtain rfl := List.eq_nil_of_length_eq_zero hlength
      exact ⟨fun _ => h.functional h', fun _ => rfl⟩
    · exact hlast hnil
  · -- a request names the transition it continues
    exact halike.eq ((anchored_of_verify hanchor').previous.trans (anchored_of_verify hanchor).previous.symm)

section Samples

def sampleCertificate (device : Id) (sequence : Nat) : DeviceCertificate :=
  ⟨⟨deviceCertificateVersion, 100, device, device, sequence, DeviceCapability.messaging⟩, []⟩

def sampleSnapshot (revision : Nat) : AccountAuthoritySnapshot := ⟨⟨authorityVersion, 100, revision, []⟩, []⟩

def samplePackage (devices : List Id) : AccountRootRecoveryPackage :=
  ⟨⟨accountRootRecoveryVersion, 100, sampleSnapshot devices.length,
    ⟨⟨accountDeviceListVersion, sampleSnapshot devices.length,
      devices.mapIdx fun sequence device => sampleCertificate device sequence⟩, []⟩, []⟩, []⟩

def sampleWitness (devices : List Id) : AccountRootRecoveryWitness Term :=
  ⟨⟨accountRootRecoveryVersion, 100, devices.length, Coded.code (samplePackage devices)⟩, []⟩

def sampleRequest (epoch : Nat) (previous : Term) (old new : List Id) : AccountRecoveryPolicyTransitionRequest Term :=
  ⟨recoveryPolicyVersion, epoch, previous, samplePackage old, sampleWitness old, samplePackage new,
    sampleWitness new, 7, 1000, 1100⟩

def addFourth : AccountRecoveryPolicyTransitionRequest Term := sampleRequest 0 (.atom 0) [1, 2, 3] [1, 2, 3, 4]

/-- Devices have approved the addition of the fourth device and nothing else. -/
def samplePrimitives : Primitives Term := .plain (fun _ _ _ => .ok ()) fun _ message _ =>
    match message with
    | .approval a => Except.failIf (a.requestId ≠ Coded.code addFourth) .invalidSignature
    | _ => .ok ()

def sampleApproval (device : Id) : AccountRecoveryPolicyTransitionApproval Term :=
  ⟨⟨recoveryPolicyVersion, 100, Coded.code addFourth, 0, 1, .atom 0,
    Coded.code (samplePackage [1, 2, 3]).deviceList, Coded.code (samplePackage [1, 2, 3, 4]).deviceList, 7,
    1100, device, .atom 0, 1000⟩, []⟩

def certificateBy (devices : List Id) : AccountRecoveryPolicyTransitionCertificate Term :=
  ⟨recoveryPolicyVersion, addFourth, devices.map sampleApproval⟩

def sampleGenesis : AccountRecoveryPolicyState Term :=
  ⟨recoveryPolicyVersion, 100, 0, Coded.code (samplePackage [1, 2, 3]).deviceList, .atom 0⟩

def stateBy (devices : List Id) : AccountRecoveryPolicyState Term :=
  ⟨recoveryPolicyVersion, 100, 1, Coded.code (samplePackage [1, 2, 3, 4]).deviceList,
    Coded.code (certificateBy devices)⟩

theorem sample_oneRequest (s : AccountRecoveryPolicyState Term) : OneRequest samplePrimitives s := by
  intro list _ device _ a b v w ha hb _ _
  have hrequest {c : TransitionApprovalContent Term} {x : Bytes}
      (hc : samplePrimitives.verifyRecovery device (.approval c) x = .ok ()) :
      c.requestId = Coded.code addFourth := not_not.mp (failIf_eq_ok.mp hc)
  rw [hrequest ha, hrequest hb]

/-- The third or the fourth device has approved the request too: two certificates, and states that are alike
and differ, so that a request that continues the one does not continue the other. -/
theorem recovery_policy_agreement_sample :
    Follows samplePrimitives sampleGenesis [certificateBy [1, 2, 3]] (stateBy [1, 2, 3]) ∧
      Follows samplePrimitives sampleGenesis [certificateBy [1, 2, 4]] (stateBy [1, 2, 4]) ∧
      Alike (stateBy [1, 2, 3]) (stateBy [1, 2, 4]) ∧
      (stateBy [1, 2, 4]).verifyTransitionAnchor samplePrimitives
        (sampleRequest 1 (Coded.code (certificateBy [1, 2, 3])) [1, 2, 3, 4] [1, 2, 3, 4, 5]) ≠ .ok () := by
  have hfollows : Follows samplePrimitives sampleGenesis [certificateBy [1, 2, 3]] (stateBy [1, 2, 3]) :=
    .next (by decide +kernel) (by decide +kernel) (.done _)
  have hfollows' : Follows samplePrimitives sampleGenesis [certificateBy [1, 2, 4]] (stateBy [1, 2, 4]) :=
    .next (by decide +kernel) (by decide +kernel) (.done _)
  obtain ⟨-, halike, -, -, hnext⟩ := recovery_policy_agreement samplePrimitives
    (Primitives.plain_collisionFree _ _) hfollows hfollows' (fun _ _ m _ _ => sample_oneRequest m) rfl
  exact ⟨hfollows, hfollows', halike, fun hok => absurd ((hnext _ (by decide +kernel)).mp hok) (by decide +kernel)⟩

/-- Two of the old devices and either the third or the fourth have approved the request. Both
certificates continue the genesis, the states differ, and a request that continues the one is refused
by the other. -/
theorem approvals_split_states : samplePrimitives.CollisionFree ∧ OneRequest samplePrimitives sampleGenesis ∧
      AccountRecoveryPolicyState.genesis samplePrimitives (samplePackage [1, 2, 3]) = .ok sampleGenesis ∧
      sampleGenesis.verifyTransitionAnchor samplePrimitives (certificateBy [1, 2, 3]).request = .ok () ∧
      sampleGenesis.verifyTransitionAnchor samplePrimitives (certificateBy [1, 2, 4]).request = .ok () ∧
      AccountRecoveryPolicyState.transitioned samplePrimitives (certificateBy [1, 2, 3]) = .ok (stateBy [1, 2, 3]) ∧
      AccountRecoveryPolicyState.transitioned samplePrimitives (certificateBy [1, 2, 4]) = .ok (stateBy [1, 2, 4]) ∧
      stateBy [1, 2, 3] ≠ stateBy [1, 2, 4] ∧
      (stateBy [1, 2, 3]).verifyTransitionAnchor samplePrimitives
        (sampleRequest 1 (Coded.code (certificateBy [1, 2, 3])) [1, 2, 3, 4] [1, 2, 3, 4, 5]) = .ok () ∧
      (stateBy [1, 2, 4]).verifyTransitionAnchor samplePrimitives
        (sampleRequest 1 (Coded.code (certificateBy [1, 2, 3])) [1, 2, 3, 4] [1, 2, 3, 4, 5]) =
          .error .accountRecoveryPolicyAnchorMismatch := by
  refine ⟨Primitives.plain_collisionFree _ _, sample_oneRequest _, ?_⟩
  decide +kernel

end Samples
end Kilogram.Identity
