import Kilogram.Identity.Authority

/-!
# Recovery packages and the policy that guards them

The root exports a package of the snapshot, the device list and the memberships, pinned by a witness. The
policy state names the list that may vote on a recovery by the digest of a package. A change of the list
is requested, approved by a majority of the old and of the new list, and certified.

Digests are values of a type `D`. Encoding an object checks it first, as taking its digest does.
-/

namespace Kilogram.Identity
open Except (failIf)

def accountRootRecoveryVersion : UInt8 := 1
def recoveryPolicyVersion : UInt8 := 1
def maxAccountRootRecoveryMemberships : Nat := 16 * 1024
def maxAccountRootRecoveryPackageBytes : Nat := 32 * 1024 * 1024
def maxAccountRootRecoveryWitnessBytes : Nat := 4 * 1024
def maxAccountRootRecoveryApprovalValiditySeconds : Nat := 1800
def clockSkewSeconds : Nat := 120

def maxAccountRecoveryPolicyTransitionRequestBytes : Nat :=
  2 * (maxAccountRootRecoveryPackageBytes + maxAccountRootRecoveryWitnessBytes) + 64 * 1024

def maxAccountRecoveryPolicyTransitionApprovalBytes : Nat := 16 * 1024
def maxAccountRecoveryPolicyTransitionApprovals : Nat := maxAccountDevices * 2

def maxAccountRecoveryPolicyCertificateBytes : Nat := maxAccountRecoveryPolicyTransitionRequestBytes +
    maxAccountRecoveryPolicyTransitionApprovals * maxAccountRecoveryPolicyTransitionApprovalBytes +
    64 * 1024

structure AccountRootRecoveryPackageContent where
  version : UInt8
  accountId : Id
  authoritySnapshot : AccountAuthoritySnapshot
  deviceList : AccountDeviceListSnapshot
  conversationMemberships : List ConversationMembershipSnapshot

structure AccountRootRecoveryPackage where
  content : AccountRootRecoveryPackageContent
  signature : Bytes

structure AccountRootRecoveryWitnessContent (D : Type) where
  version : UInt8
  accountId : Id
  authorityRevision : Nat
  packageId : D

structure AccountRootRecoveryWitness (D : Type) where
  content : AccountRootRecoveryWitnessContent D
  signature : Bytes

structure AccountRecoveryPolicyState (D : Type) where
  version : UInt8
  accountId : Id
  epoch : Nat
  (recoveryRosterDigest latestTransitionId : D)
  deriving DecidableEq

structure AccountRecoveryPolicyTransitionRequest (D : Type) where
  version : UInt8
  oldEpoch : Nat
  previousTransitionId : D
  oldPackage : AccountRootRecoveryPackage
  oldWitness : AccountRootRecoveryWitness D
  newPackage : AccountRootRecoveryPackage
  newWitness : AccountRootRecoveryWitness D
  challenge : Id
  (issuedAtUnixSeconds expiresAtUnixSeconds : Nat)

structure TransitionApprovalContent (D : Type) where
  version : UInt8
  accountId : Id
  requestId : D
  (oldEpoch newEpoch : Nat)
  (previousTransitionId oldRecoveryRosterDigest newRecoveryRosterDigest : D)
  challenge : Id
  requestExpiresAtUnixSeconds : Nat
  approverDeviceId : Id
  previousTransitionApprovalId : D
  approvedAtUnixSeconds : Nat

structure AccountRecoveryPolicyTransitionApproval (D : Type) where
  content : TransitionApprovalContent D
  signature : Bytes

structure AccountRecoveryPolicyTransitionCertificate (D : Type) where
  version : UInt8
  request : AccountRecoveryPolicyTransitionRequest D
  approvals : List (AccountRecoveryPolicyTransitionApproval D)

inductive RecoveryMessage (D : Type) where
  | package (content : AccountRootRecoveryPackageContent)
  | witness (content : AccountRootRecoveryWitnessContent D)
  | approval (content : TransitionApprovalContent D)

structure Primitives (D : Type) extends Signatures where
  zero : D
  rosterDigest : AccountDeviceListSnapshot → D
  packageId : AccountRootRecoveryPackage → D
  requestId : AccountRecoveryPolicyTransitionRequest D → D
  certificateId : AccountRecoveryPolicyTransitionCertificate D → D
  packageBytes : AccountRootRecoveryPackage → Nat
  requestBytes : AccountRecoveryPolicyTransitionRequest D → Nat
  certificateBytes : AccountRecoveryPolicyTransitionCertificate D → Nat
  verifyRecovery : (key : Id) → RecoveryMessage D → (signature : Bytes) → Checked Unit

/-- Different objects have different digests. -/
structure Primitives.CollisionFree {D : Type} (P : Primitives D) : Prop where
  rosterDigest : Function.Injective P.rosterDigest
  requestId : Function.Injective P.requestId
  certificateId : Function.Injective P.certificateId

section
variable {D : Type} [DecidableEq D] (P : Primitives D)

def validateAccountRootRecoveryPackageContent (c : AccountRootRecoveryPackageContent) : Checked Unit := do
  failIf (c.version ≠ accountRootRecoveryVersion) (.unsupportedAccountRootRecoveryVersion c.version)
  c.authoritySnapshot.verifyForAccount P.toSignatures c.accountId
  c.deviceList.verifyForAccount P.toSignatures c.accountId
  failIf (c.deviceList.revision > c.authoritySnapshot.revision)
    (.accountRootRecoveryDeviceListAhead c.deviceList.revision c.authoritySnapshot.revision)
  failIf (c.deviceList.revision < c.authoritySnapshot.revision)
    (.accountRootRecoveryDeviceListRevisionMismatch c.deviceList.revision c.authoritySnapshot.revision)
  failIf (c.conversationMemberships.length > maxAccountRootRecoveryMemberships)
    (.tooManyAccountRootRecoveryMemberships c.conversationMemberships.length)
  forM c.conversationMemberships fun membership => membership.verifyForOwner P.toSignatures c.accountId
  checkAscending (fun m : ConversationMembershipSnapshot => m.conversationId.toNat)
    (fun m => .duplicateAccountRootRecoveryMembership m.conversationId)
    .nonCanonicalAccountRootRecoveryMemberships c.conversationMemberships

namespace AccountRootRecoveryPackage

def accountId (p : AccountRootRecoveryPackage) : Id := p.content.accountId

def authoritySnapshot (p : AccountRootRecoveryPackage) : AccountAuthoritySnapshot := p.content.authoritySnapshot

def authorityRevision (p : AccountRootRecoveryPackage) : Nat := p.content.authoritySnapshot.revision
def deviceList (p : AccountRootRecoveryPackage) : AccountDeviceListSnapshot := p.content.deviceList
def deviceCount (p : AccountRootRecoveryPackage) : Nat := p.content.deviceList.devices.length

def conversationMemberships (p : AccountRootRecoveryPackage) : List ConversationMembershipSnapshot :=
  p.content.conversationMemberships

def verify (p : AccountRootRecoveryPackage) : Checked Unit := do
  validateAccountRootRecoveryPackageContent P p.content
  P.verifyRecovery p.content.accountId (.package p.content) p.signature

def recoveryRosterDigest (p : AccountRootRecoveryPackage) : Checked D := do
  p.content.deviceList.verify P.toSignatures
  return P.rosterDigest p.content.deviceList

def id (p : AccountRootRecoveryPackage) : Checked D := do
  p.verify P
  failIf (P.packageBytes p > maxAccountRootRecoveryPackageBytes)
    (.accountRootRecoveryPackageTooLarge (P.packageBytes p))
  return P.packageId p

/-- A device votes when it is on the list and its authorization is in force. -/
def isActiveVoter (p : AccountRootRecoveryPackage) (deviceId : Id) : Bool :=
  match p.deviceList.certificateFor deviceId with
  | none => false
  | some certificate => (verifyDeviceAuthorizationWithSnapshot P.toSignatures p.accountId certificate
      p.authoritySnapshot DeviceCapability.messaging).isOk

end AccountRootRecoveryPackage

namespace AccountRootRecoveryWitness

def verify (w : AccountRootRecoveryWitness D) : Checked Unit := do
  failIf (w.content.version ≠ accountRootRecoveryVersion) (.unsupportedAccountRootRecoveryVersion w.content.version)
  P.verifyRecovery w.content.accountId (.witness w.content) w.signature

def verifyPackage (w : AccountRootRecoveryWitness D) (package : AccountRootRecoveryPackage) : Checked Unit := do
  w.verify P
  package.verify P
  let packageId ← package.id P
  failIf (w.content.accountId ≠ package.accountId ∨
      w.content.authorityRevision ≠ package.authorityRevision ∨ w.content.packageId ≠ packageId)
    .accountRootRecoveryWitnessMismatch

end AccountRootRecoveryWitness

/-- The membership goes on: no lower revision, the same at the same revision, and no member lost. -/
def membershipContinues (old new : ConversationMembershipSnapshot) : Prop :=
  ¬ (new.revision < old.revision ∨ (new.revision = old.revision ∧ new ≠ old) ∨
    (new.revision > old.revision ∧ ∃ member ∈ old.members, member ∉ new.members))
  deriving Decidable

def verifyRecoveryPackageSuccessor (old new : AccountRootRecoveryPackage) (requireRosterChange : Bool) :
    Checked Unit := do
  old.verify P
  new.verify P
  failIf (old.accountId ≠ new.accountId ∨ new.authorityRevision < old.authorityRevision)
    .accountRecoveryPolicyStateRollback
  failIf (new.authorityRevision = old.authorityRevision ∧
      new.authoritySnapshot ≠ old.authoritySnapshot) .accountRecoveryPolicyStateRollback
  failIf (∃ r ∈ old.authoritySnapshot.revocations, r ∉ new.authoritySnapshot.revocations)
    .accountRecoveryPolicyStateRollback
  forM old.conversationMemberships fun oldMembership =>
    match new.conversationMemberships.find? (·.conversationId = oldMembership.conversationId) with
    | none => throw .accountRecoveryPolicyStateRollback
    | some newMembership => failIf (¬ membershipContinues oldMembership newMembership)
        .accountRecoveryPolicyStateRollback
  forM old.deviceList.devices fun oldCertificate =>
    match new.deviceList.certificateFor oldCertificate.deviceId with
    | some newCertificate => failIf (newCertificate ≠ oldCertificate)
        .accountRecoveryPolicyStateRollback
    | none => failIf
        (¬ ∃ r ∈ new.authoritySnapshot.revocations, r.deviceId = oldCertificate.deviceId)
        .accountRecoveryPolicyStateRollback
  let oldDigest ← old.recoveryRosterDigest P
  let newDigest ← new.recoveryRosterDigest P
  failIf (requireRosterChange = true ∧ oldDigest = newDigest)
    .accountRecoveryPolicyRosterUnchanged
  failIf (requireRosterChange = true ∧ new.authorityRevision ≤ old.authorityRevision)
    .accountRecoveryPolicyStateRollback

/-- The zero identifier stands for no transition, which is so at the first epoch only. -/
def epochMatches (epoch : Nat) (transitionId : D) : Checked Unit := do
  failIf (epoch = 0 ∧ transitionId ≠ P.zero) .invalidAccountRecoveryPolicyEpoch
  failIf (epoch > 0 ∧ transitionId = P.zero) .invalidAccountRecoveryPolicyEpoch

namespace AccountRecoveryPolicyTransitionRequest

def accountId (r : AccountRecoveryPolicyTransitionRequest D) : Id := r.oldPackage.accountId
def newEpoch (r : AccountRecoveryPolicyTransitionRequest D) : Nat := r.oldEpoch + 1

def oldRequiredApprovals (r : AccountRecoveryPolicyTransitionRequest D) : Nat := r.oldPackage.deviceCount / 2 + 1

def newRequiredApprovals (r : AccountRecoveryPolicyTransitionRequest D) : Nat := r.newPackage.deviceCount / 2 + 1

def verifyStatic (r : AccountRecoveryPolicyTransitionRequest D) : Checked Unit := do
  failIf (r.version ≠ recoveryPolicyVersion) (.unsupportedAccountRecoveryPolicyVersion r.version)
  r.oldPackage.verify P
  r.oldWitness.verifyPackage P r.oldPackage
  r.newPackage.verify P
  r.newWitness.verifyPackage P r.newPackage
  failIf (r.oldEpoch = 2 ^ 64 - 1) .invalidAccountRecoveryPolicyEpoch
  epochMatches P r.oldEpoch r.previousTransitionId
  verifyRecoveryPackageSuccessor P r.oldPackage r.newPackage true
  failIf (r.expiresAtUnixSeconds < r.issuedAtUnixSeconds)
    .invalidAccountRootRecoveryApprovalValidity
  failIf (¬ (1 ≤ r.expiresAtUnixSeconds - r.issuedAtUnixSeconds ∧
      r.expiresAtUnixSeconds - r.issuedAtUnixSeconds ≤ maxAccountRootRecoveryApprovalValiditySeconds))
    .invalidAccountRootRecoveryApprovalValidity

def id (r : AccountRecoveryPolicyTransitionRequest D) : Checked D := do
  r.verifyStatic P
  failIf (P.requestBytes r > maxAccountRecoveryPolicyTransitionRequestBytes)
    (.accountRecoveryPolicyArtifactTooLarge (P.requestBytes r)
      maxAccountRecoveryPolicyTransitionRequestBytes)
  return P.requestId r

end AccountRecoveryPolicyTransitionRequest

namespace AccountRecoveryPolicyTransitionApproval

def approverDeviceId (a : AccountRecoveryPolicyTransitionApproval D) : Id := a.content.approverDeviceId

def verifySignature (a : AccountRecoveryPolicyTransitionApproval D) : Checked Unit := do
  failIf (a.content.version ≠ recoveryPolicyVersion) (.unsupportedAccountRecoveryPolicyVersion a.content.version)
  P.verifyRecovery a.content.approverDeviceId (.approval a.content) a.signature

def verifyForRequest (a : AccountRecoveryPolicyTransitionApproval D)
    (request : AccountRecoveryPolicyTransitionRequest D) : Checked Unit := do
  a.verifySignature P
  request.verifyStatic P
  failIf (a.content.accountId ≠ request.accountId)
    .accountRecoveryPolicyTransitionApprovalMismatch
  let requestId ← request.id P
  failIf (a.content.requestId ≠ requestId ∨ a.content.oldEpoch ≠ request.oldEpoch ∨
      a.content.newEpoch ≠ request.newEpoch ∨
      a.content.previousTransitionId ≠ request.previousTransitionId)
    .accountRecoveryPolicyTransitionApprovalMismatch
  let oldDigest ← request.oldPackage.recoveryRosterDigest P
  failIf (a.content.oldRecoveryRosterDigest ≠ oldDigest)
    .accountRecoveryPolicyTransitionApprovalMismatch
  let newDigest ← request.newPackage.recoveryRosterDigest P
  failIf (a.content.newRecoveryRosterDigest ≠ newDigest ∨ a.content.challenge ≠ request.challenge ∨
      a.content.requestExpiresAtUnixSeconds ≠ request.expiresAtUnixSeconds)
    .accountRecoveryPolicyTransitionApprovalMismatch
  failIf (a.content.approvedAtUnixSeconds < request.issuedAtUnixSeconds - clockSkewSeconds ∨
      a.content.approvedAtUnixSeconds > request.expiresAtUnixSeconds)
    .accountRecoveryPolicyTransitionApprovalTimeInvalid
  failIf (request.oldPackage.isActiveVoter P a.approverDeviceId = false ∧
      request.newPackage.isActiveVoter P a.approverDeviceId = false)
    (.accountRecoveryPolicyApproverNotInEitherRoster a.approverDeviceId)

end AccountRecoveryPolicyTransitionApproval

structure AccountRecoveryPolicyTransitionReport where
  (oldObserved oldRequired newObserved newRequired : Nat)

namespace AccountRecoveryPolicyTransitionReport

def jointMajoritySatisfied (r : AccountRecoveryPolicyTransitionReport) : Prop :=
  r.oldObserved ≥ r.oldRequired ∧ r.newObserved ≥ r.newRequired
  deriving Decidable

def requireJointMajority (r : AccountRecoveryPolicyTransitionReport) : Checked Unit :=
  failIf (¬ r.jointMajoritySatisfied)
    (.insufficientAccountRecoveryPolicyJointQuorum r.oldObserved r.oldRequired r.newObserved
      r.newRequired)

end AccountRecoveryPolicyTransitionReport

/-- The pass over the approvals: each is checked, none comes twice from a device, and the voters of both
lists are counted. -/
def countApprovals (request : AccountRecoveryPolicyTransitionRequest D) :
    List (AccountRecoveryPolicyTransitionApproval D) → (distinct : List Id) →
      (oldObserved newObserved : Nat) → Checked (Nat × Nat)
  | [], _, oldObserved, newObserved => return (oldObserved, newObserved)
  | approval :: rest, distinct, oldObserved, newObserved => do
    approval.verifyForRequest P request
    failIf (approval.approverDeviceId ∈ distinct) (.duplicateAccountRecoveryPolicyApprover approval.approverDeviceId)
    countApprovals request rest (approval.approverDeviceId :: distinct)
      (oldObserved + (request.oldPackage.isActiveVoter P approval.approverDeviceId).toNat)
      (newObserved + (request.newPackage.isActiveVoter P approval.approverDeviceId).toNat)

def verifyAccountRecoveryPolicyTransition (request : AccountRecoveryPolicyTransitionRequest D)
    (approvals : List (AccountRecoveryPolicyTransitionApproval D)) :
    Checked AccountRecoveryPolicyTransitionReport := do
  request.verifyStatic P
  failIf (approvals.length > maxAccountRecoveryPolicyTransitionApprovals)
    (.tooManyAccountRecoveryPolicyApprovals approvals.length)
  let (oldObserved, newObserved) ← countApprovals P request approvals [] 0 0
  return ⟨oldObserved, request.oldRequiredApprovals, newObserved, request.newRequiredApprovals⟩

namespace AccountRecoveryPolicyTransitionCertificate

def verify (c : AccountRecoveryPolicyTransitionCertificate D) : Checked Unit := do
  failIf (c.version ≠ recoveryPolicyVersion) (.unsupportedAccountRecoveryPolicyVersion c.version)
  failIf (¬ c.approvals.IsChain fun a b => a.approverDeviceId < b.approverDeviceId)
    .nonCanonicalAccountRecoveryPolicyApprovals
  let report ← verifyAccountRecoveryPolicyTransition P c.request c.approvals
  report.requireJointMajority

def id (c : AccountRecoveryPolicyTransitionCertificate D) : Checked D := do
  c.verify P
  failIf (P.certificateBytes c > maxAccountRecoveryPolicyCertificateBytes)
    (.accountRecoveryPolicyArtifactTooLarge (P.certificateBytes c)
      maxAccountRecoveryPolicyCertificateBytes)
  return P.certificateId c

end AccountRecoveryPolicyTransitionCertificate

namespace AccountRecoveryPolicyState

def genesis (package : AccountRootRecoveryPackage) : Checked (AccountRecoveryPolicyState D) := do
  package.verify P
  let digest ← package.recoveryRosterDigest P
  return ⟨recoveryPolicyVersion, package.accountId, 0, digest, P.zero⟩

def transitioned (certificate : AccountRecoveryPolicyTransitionCertificate D) :
    Checked (AccountRecoveryPolicyState D) := do
  certificate.verify P
  let digest ← certificate.request.newPackage.recoveryRosterDigest P
  let transitionId ← certificate.id P
  return ⟨recoveryPolicyVersion, certificate.request.accountId, certificate.request.newEpoch, digest, transitionId⟩

def verify (s : AccountRecoveryPolicyState D) : Checked Unit := do
  failIf (s.version ≠ recoveryPolicyVersion) (.unsupportedAccountRecoveryPolicyVersion s.version)
  epochMatches P s.epoch s.latestTransitionId

def verifyTransitionAnchor (s : AccountRecoveryPolicyState D)
    (request : AccountRecoveryPolicyTransitionRequest D) : Checked Unit := do
  s.verify P
  request.verifyStatic P
  failIf (s.accountId ≠ request.accountId ∨ s.epoch ≠ request.oldEpoch)
    .accountRecoveryPolicyAnchorMismatch
  let oldDigest ← request.oldPackage.recoveryRosterDigest P
  failIf (s.recoveryRosterDigest ≠ oldDigest ∨ s.latestTransitionId ≠ request.previousTransitionId)
    .accountRecoveryPolicyAnchorMismatch

end AccountRecoveryPolicyState
end
end Kilogram.Identity
