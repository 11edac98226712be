import Kilogram.Lib.Term
import Kilogram.Identity.Recovery

/-!
# Digests of the recovery policy as terms

The objects whose digests the recovery policy takes are determined by their fields.
-/

namespace Kilogram.Identity

instance : Coded DeviceCapability := .ofInjective DeviceCapability.code (by
  intro a b h
  cases a <;> cases b <;> simp_all [DeviceCapability.code])

instance : Coded DeviceCertificateContent :=
  .ofFields (fun c => (c.version, c.accountId, c.deviceId, c.encryptionPublicKey,
    c.authoritySequence, c.capabilities))

instance : Coded DeviceCertificate := .ofFields (fun c => (c.content, c.signature))

instance : Coded DeviceRevocationContent :=
  .ofFields (fun c => (c.version, c.accountId, c.deviceId, c.authoritySequence))

instance : Coded DeviceRevocation := .ofFields (fun c => (c.content, c.signature))

instance : Coded AccountAuthoritySnapshotContent :=
  .ofFields (fun c => (c.version, c.accountId, c.revision, c.revocations))

instance : Coded AccountAuthoritySnapshot := .ofFields (fun c => (c.content, c.signature))

instance : Coded AccountDeviceListSnapshotContent := .ofFields (fun c => (c.version, c.authoritySnapshot, c.devices))

instance : Coded AccountDeviceListSnapshot := .ofFields (fun c => (c.content, c.signature))

instance : Coded ConversationMembershipSnapshotContent :=
  .ofFields (fun c => (c.version, c.conversationId, c.revision, c.ownerAccountId, c.members))

instance : Coded ConversationMembershipSnapshot := .ofFields (fun c => (c.content, c.signature))

instance : Coded AccountRootRecoveryPackageContent :=
  .ofFields (fun c => (c.version, c.accountId, c.authoritySnapshot, c.deviceList, c.conversationMemberships))

instance : Coded AccountRootRecoveryPackage := .ofFields (fun c => (c.content, c.signature))

section
variable {D : Type} [Coded D]

instance : Coded (AccountRootRecoveryWitnessContent D) :=
  .ofFields (fun c => (c.version, c.accountId, c.authorityRevision, c.packageId))

instance : Coded (AccountRootRecoveryWitness D) := .ofFields (fun c => (c.content, c.signature))

instance : Coded (AccountRecoveryPolicyTransitionRequest D) :=
  .ofFields (fun r => (r.version, r.oldEpoch, r.previousTransitionId, r.oldPackage, r.oldWitness,
    r.newPackage, r.newWitness, r.challenge, r.issuedAtUnixSeconds, r.expiresAtUnixSeconds))

instance : Coded (TransitionApprovalContent D) :=
  .ofFields (fun a => (a.version, a.accountId, a.requestId, a.oldEpoch, a.newEpoch,
    a.previousTransitionId, a.oldRecoveryRosterDigest, a.newRecoveryRosterDigest, a.challenge,
    a.requestExpiresAtUnixSeconds, a.approverDeviceId, a.previousTransitionApprovalId,
    a.approvedAtUnixSeconds))

instance : Coded (AccountRecoveryPolicyTransitionApproval D) := .ofFields (fun a => (a.content, a.signature))

instance : Coded (AccountRecoveryPolicyTransitionCertificate D) :=
  .ofFields (fun c => (c.version, c.request, c.approvals))

end

/-- Terms for digests, with a given check of signatures; every encoding is short enough. -/
def Primitives.plain (verify : Id → AuthorityMessage → Bytes → Checked Unit)
    (verifyRecovery : Id → RecoveryMessage Term → Bytes → Checked Unit) : Primitives Term where
  verify := verify
  zero := .atom 0
  rosterDigest := Coded.code
  packageId := Coded.code
  requestId := Coded.code
  certificateId := Coded.code
  packageBytes _ := 0
  requestBytes _ := 0
  certificateBytes _ := 0
  verifyRecovery := verifyRecovery

theorem Primitives.plain_collisionFree (verify : Id → AuthorityMessage → Bytes → Checked Unit)
    (verifyRecovery : Id → RecoveryMessage Term → Bytes → Checked Unit) :
    (Primitives.plain verify verifyRecovery).CollisionFree :=
  ⟨Coded.code_injective, Coded.code_injective, Coded.code_injective⟩

end Kilogram.Identity
