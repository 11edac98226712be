import Kilogram.Vault.Types

/-!
# Certificates, revocations and device lists of an account

The root of an account certifies its devices, revokes them, and signs snapshots of what is in force: the
revocations up to a revision, and the complete list of the devices at that revision.
-/

namespace Kilogram.Identity
open Except (ok_iff failIf)

def authorityVersion : UInt8 := 1
def deviceCertificateVersion : UInt8 := 2
def accountDeviceListVersion : UInt8 := 1
def maxAccountDevices : Nat := 32

inductive DeviceCapability where
  | signEvents
  | syncHistory
  deriving DecidableEq

namespace DeviceCapability

def messaging : List DeviceCapability := [.signEvents, .syncHistory]

def code : DeviceCapability → Nat
  | .signEvents => 0
  | .syncHistory => 1

end DeviceCapability

inductive IdentityError where
  | invalidSignature
  | unsupportedAccountAuthorityVersion (version : UInt8)
  | emptyDeviceCapabilities
  | duplicateDeviceCapability
  | nonCanonicalDeviceCapabilities
  | accountMismatch (expected actual : Id)
  | revocationOutsideSnapshot (revocationSequence snapshotRevision : Nat)
  | duplicateDeviceRevocation (device : Id)
  | nonCanonicalAuthoritySnapshot
  | missingDeviceCapability (capability : DeviceCapability)
  | deviceRevoked (device : Id)
  | certificateOutsideSnapshot (certificateSequence snapshotRevision : Nat)
  | unsupportedAccountDeviceListVersion (version : UInt8)
  | emptyAccountDeviceList
  | tooManyAccountDevices (count : Nat)
  | duplicateAccountDevice (device : Id)
  | nonCanonicalAccountDeviceList
  | invalidConversationMembershipRevision
  | duplicateConversationMember (account : Id)
  | nonCanonicalConversationMembers
  | accountNotConversationMember (account : Id)
  | conversationMembershipOwnerMismatch (expected actual : Id)
  | unsupportedAccountRootRecoveryVersion (version : UInt8)
  | accountRootRecoveryDeviceListAhead (deviceListRevision authorityRevision : Nat)
  | accountRootRecoveryDeviceListRevisionMismatch (deviceListRevision authorityRevision : Nat)
  | tooManyAccountRootRecoveryMemberships (count : Nat)
  | duplicateAccountRootRecoveryMembership (conversation : Id)
  | nonCanonicalAccountRootRecoveryMemberships
  | accountRootRecoveryPackageTooLarge (length : Nat)
  | accountRootRecoveryWitnessMismatch
  | invalidAccountRootRecoveryApprovalValidity
  | unsupportedAccountRecoveryPolicyVersion (version : UInt8)
  | invalidAccountRecoveryPolicyEpoch
  | accountRecoveryPolicyAnchorMismatch
  | accountRecoveryPolicyStateRollback
  | accountRecoveryPolicyRosterUnchanged
  | accountRecoveryPolicyTransitionApprovalMismatch
  | accountRecoveryPolicyTransitionApprovalTimeInvalid
  | accountRecoveryPolicyApproverNotInEitherRoster (device : Id)
  | accountRecoveryPolicyArtifactTooLarge (actual maximum : Nat)
  | tooManyAccountRecoveryPolicyApprovals (count : Nat)
  | duplicateAccountRecoveryPolicyApprover (device : Id)
  | nonCanonicalAccountRecoveryPolicyApprovals
  | insufficientAccountRecoveryPolicyJointQuorum (oldObserved oldRequired newObserved newRequired : Nat)
  | malformedFile
  | alreadyExists
  | accountAuthorityWriteLocked
  | unsupportedAuthorityLogVersion (version : String)
  | legacyAuthorityState
  | invalidSequence
  | authoritySequenceExhausted
  | accountDeviceListMissing
  | deviceEnrollmentIdentityConflict (device : Id)
  | deviceAlreadyRevoked (device : Id)
  | deviceNotActive (device : Id)
  | cannotRemoveLastActiveDevice
  | accountDeviceListRollback (storedRevision receivedRevision : Nat)
  | accountDeviceListAlreadyPublished (revision : Nat)
  | conversationMembershipAlreadyExists (conversation : Id)
  | conversationMembershipMissing (conversation : Id)
  | conversationMembershipRevisionExhausted
  deriving DecidableEq

abbrev Checked := Except IdentityError

structure DeviceCertificateContent where
  version : UInt8
  (accountId deviceId encryptionPublicKey : Id)
  authoritySequence : Nat
  capabilities : List DeviceCapability
  deriving DecidableEq

structure DeviceCertificate where
  content : DeviceCertificateContent
  signature : Bytes
  deriving DecidableEq

structure DeviceRevocationContent where
  version : UInt8
  (accountId deviceId : Id)
  authoritySequence : Nat
  deriving DecidableEq

structure DeviceRevocation where
  content : DeviceRevocationContent
  signature : Bytes
  deriving DecidableEq

structure AccountAuthoritySnapshotContent where
  version : UInt8
  accountId : Id
  revision : Nat
  revocations : List DeviceRevocation
  deriving DecidableEq

structure AccountAuthoritySnapshot where
  content : AccountAuthoritySnapshotContent
  signature : Bytes
  deriving DecidableEq

structure AccountDeviceListSnapshotContent where
  version : UInt8
  authoritySnapshot : AccountAuthoritySnapshot
  devices : List DeviceCertificate
  deriving DecidableEq

structure AccountDeviceListSnapshot where
  content : AccountDeviceListSnapshotContent
  signature : Bytes
  deriving DecidableEq

structure ConversationMembershipSnapshotContent where
  version : UInt8
  conversationId : Id
  revision : Nat
  ownerAccountId : Id
  members : List Id
  deriving DecidableEq

structure ConversationMembershipSnapshot where
  content : ConversationMembershipSnapshotContent
  signature : Bytes
  deriving DecidableEq

/-- What the root of an account signs, each kind under a domain of its own. -/
inductive AuthorityMessage where
  | certificate (content : DeviceCertificateContent)
  | revocation (content : DeviceRevocationContent)
  | authoritySnapshot (content : AccountAuthoritySnapshotContent)
  | deviceList (content : AccountDeviceListSnapshotContent)
  | membership (content : ConversationMembershipSnapshotContent)

/-- The check of a signature by a key, with its error. -/
structure Signatures where
  verify : (key : Id) → AuthorityMessage → (signature : Bytes) → Checked Unit

/-- Neighbours of a list ascend: the first pair that does not is an error. -/
def checkAscending {α : Type} (key : α → Nat) (equal : α → IdentityError) (greater : IdentityError) :
    List α → Checked Unit
  | a :: b :: rest => do
    failIf (key a = key b) (equal a)
    failIf (key b < key a) greater
    checkAscending key equal greater (b :: rest)
  | _ => return

theorem checkAscending_eq_ok {α : Type} {key : α → Nat} {equal : α → IdentityError}
    {greater : IdentityError} {l : List α} {u : Unit} :
    checkAscending key equal greater l = .ok u ↔ l.IsChain fun a b => key a < key b := by
  induction l with
  | nil => exact iff_of_true rfl .nil
  | cons a rest ih =>
    cases rest with
    | nil => exact iff_of_true rfl (.singleton a)
    | cons b rest =>
      simp only [checkAscending, ok_iff, ih, List.isChain_cons_cons]
      constructor
      · rintro ⟨_, hne, _, hle, hrest⟩
        exact ⟨Nat.lt_of_le_of_ne (Nat.not_lt.mp hle) hne, hrest⟩
      · rintro ⟨hlt, hrest⟩
        exact ⟨(), Nat.ne_of_lt hlt, (), Nat.not_lt.mpr (Nat.le_of_lt hlt), hrest⟩

theorem nodup_map_toNat {α : Type} {f : α → Id} {l : List α} :
    (l.map fun a => (f a).toNat).Nodup ↔ (l.map f).Nodup := by
  have : (fun a => (f a).toNat) = BitVec.toNat ∘ f := rfl
  rw [this, ← List.map_map]
  exact List.nodup_map_iff fun _ _ => BitVec.eq_of_toNat_eq

def validateAuthorityVersion (version : UInt8) : Checked Unit :=
  failIf (version ≠ authorityVersion) (.unsupportedAccountAuthorityVersion version)

section
variable (S : Signatures)

namespace DeviceCertificate

def deviceId (c : DeviceCertificate) : Id := c.content.deviceId
def authoritySequence (c : DeviceCertificate) : Nat := c.content.authoritySequence

/-- The capabilities ascend, so that the binary search of the source finds the members. -/
def hasCapability (c : DeviceCertificate) (capability : DeviceCapability) : Prop :=
  capability ∈ c.content.capabilities
  deriving Decidable

end DeviceCertificate

def validateCertificateContent (c : DeviceCertificateContent) : Checked Unit := do
  failIf (c.version ≠ deviceCertificateVersion) (.unsupportedAccountAuthorityVersion c.version)
  failIf (c.capabilities = []) .emptyDeviceCapabilities
  checkAscending DeviceCapability.code (fun _ => .duplicateDeviceCapability)
    .nonCanonicalDeviceCapabilities c.capabilities

namespace DeviceCertificate

def verify (c : DeviceCertificate) : Checked Unit := do
  validateCertificateContent c.content
  S.verify c.content.accountId (.certificate c.content) c.signature

def verifyForAccount (c : DeviceCertificate) (expected : Id) : Checked Unit := do
  c.verify S
  failIf (c.content.accountId ≠ expected) (.accountMismatch expected c.content.accountId)

end DeviceCertificate

namespace DeviceRevocation

def deviceId (r : DeviceRevocation) : Id := r.content.deviceId
def authoritySequence (r : DeviceRevocation) : Nat := r.content.authoritySequence

def verify (r : DeviceRevocation) : Checked Unit := do
  validateAuthorityVersion r.content.version
  S.verify r.content.accountId (.revocation r.content) r.signature

def verifyForAccount (r : DeviceRevocation) (expected : Id) : Checked Unit := do
  r.verify S
  failIf (r.content.accountId ≠ expected) (.accountMismatch expected r.content.accountId)

end DeviceRevocation

def validateAuthoritySnapshotContent (c : AccountAuthoritySnapshotContent) : Checked Unit := do
  validateAuthorityVersion c.version
  forM c.revocations fun revocation => do
    revocation.verifyForAccount S c.accountId
    failIf (revocation.authoritySequence ≥ c.revision)
      (.revocationOutsideSnapshot revocation.authoritySequence c.revision)
  checkAscending (fun r : DeviceRevocation => r.deviceId.toNat)
    (fun r => .duplicateDeviceRevocation r.deviceId) .nonCanonicalAuthoritySnapshot c.revocations

namespace AccountAuthoritySnapshot

def accountId (s : AccountAuthoritySnapshot) : Id := s.content.accountId
def revision (s : AccountAuthoritySnapshot) : Nat := s.content.revision
def revocations (s : AccountAuthoritySnapshot) : List DeviceRevocation := s.content.revocations

def verify (s : AccountAuthoritySnapshot) : Checked Unit := do
  validateAuthoritySnapshotContent S s.content
  S.verify s.content.accountId (.authoritySnapshot s.content) s.signature

def verifyForAccount (s : AccountAuthoritySnapshot) (expected : Id) : Checked Unit := do
  s.verify S
  failIf (s.content.accountId ≠ expected) (.accountMismatch expected s.content.accountId)

end AccountAuthoritySnapshot

def verifyDeviceAuthorization (expectedAccount : Id) (certificate : DeviceCertificate)
    (revocations : List DeviceRevocation) (requiredCapabilities : List DeviceCapability) :
    Checked Unit := do
  certificate.verifyForAccount S expectedAccount
  forM requiredCapabilities fun capability =>
    failIf (¬ certificate.hasCapability capability) (.missingDeviceCapability capability)
  forM revocations fun revocation => do
    revocation.verifyForAccount S expectedAccount
    failIf (revocation.deviceId = certificate.deviceId) (.deviceRevoked certificate.deviceId)

def verifyDeviceAuthorizationWithSnapshot (expectedAccount : Id) (certificate : DeviceCertificate)
    (snapshot : AccountAuthoritySnapshot) (requiredCapabilities : List DeviceCapability) :
    Checked Unit := do
  snapshot.verifyForAccount S expectedAccount
  failIf (certificate.authoritySequence ≥ snapshot.revision)
    (.certificateOutsideSnapshot certificate.authoritySequence snapshot.revision)
  verifyDeviceAuthorization S expectedAccount certificate snapshot.revocations requiredCapabilities

def validateAccountDeviceListContent (c : AccountDeviceListSnapshotContent) : Checked Unit := do
  failIf (c.version ≠ accountDeviceListVersion) (.unsupportedAccountDeviceListVersion c.version)
  c.authoritySnapshot.verify S
  failIf (c.devices = []) .emptyAccountDeviceList
  failIf (c.devices.length > maxAccountDevices) (.tooManyAccountDevices c.devices.length)
  forM c.devices fun certificate =>
    verifyDeviceAuthorizationWithSnapshot S c.authoritySnapshot.accountId certificate
      c.authoritySnapshot DeviceCapability.messaging
  checkAscending (fun d : DeviceCertificate => d.deviceId.toNat)
    (fun d => .duplicateAccountDevice d.deviceId) .nonCanonicalAccountDeviceList c.devices

namespace AccountDeviceListSnapshot

def accountId (l : AccountDeviceListSnapshot) : Id := l.content.authoritySnapshot.accountId
def revision (l : AccountDeviceListSnapshot) : Nat := l.content.authoritySnapshot.revision
def devices (l : AccountDeviceListSnapshot) : List DeviceCertificate := l.content.devices

/-- The identifiers ascend, so that the binary search of the source finds the device. -/
def certificateFor (l : AccountDeviceListSnapshot) (deviceId : Id) : Option DeviceCertificate :=
  l.devices.find? fun certificate => certificate.deviceId = deviceId

def verify (l : AccountDeviceListSnapshot) : Checked Unit := do
  validateAccountDeviceListContent S l.content
  S.verify l.accountId (.deviceList l.content) l.signature

def verifyForAccount (l : AccountDeviceListSnapshot) (expected : Id) : Checked Unit := do
  l.verify S
  failIf (l.accountId ≠ expected) (.accountMismatch expected l.accountId)

end AccountDeviceListSnapshot

def validateConversationMembershipContent (c : ConversationMembershipSnapshotContent) : Checked Unit := do
  validateAuthorityVersion c.version
  failIf (c.revision = 0) .invalidConversationMembershipRevision
  checkAscending BitVec.toNat (fun account => .duplicateConversationMember account)
    .nonCanonicalConversationMembers c.members
  failIf (c.ownerAccountId ∉ c.members) (.accountNotConversationMember c.ownerAccountId)

namespace ConversationMembershipSnapshot

def conversationId (m : ConversationMembershipSnapshot) : Id := m.content.conversationId
def revision (m : ConversationMembershipSnapshot) : Nat := m.content.revision
def members (m : ConversationMembershipSnapshot) : List Id := m.content.members

def verify (m : ConversationMembershipSnapshot) : Checked Unit := do
  validateConversationMembershipContent m.content
  S.verify m.content.ownerAccountId (.membership m.content) m.signature

def verifyForOwner (m : ConversationMembershipSnapshot) (expectedOwner : Id) : Checked Unit := do
  m.verify S
  failIf (m.content.ownerAccountId ≠ expectedOwner)
    (.conversationMembershipOwnerMismatch expectedOwner m.content.ownerAccountId)

end ConversationMembershipSnapshot
end
end Kilogram.Identity
