import Kilogram.Identity.Authority
import Kilogram.Lib.Interleaving

/-!
# The directory of an account root

The root keeps its authority log in files: the next authority sequence, one file for each revocation,
the published device list and the memberships of its conversations. The operations of several processes
work on these files by atomic steps, which may be interleaved, and a process may die before any of them.
-/

namespace Kilogram.Identity
open Crash Crash.Prog
open Except (failIf okOr)

def authorityLogVersion : String := "1"

/-- The number of authority sequences. -/
def sequenceBound : Nat := 2 ^ 64

structure AccountRootIdentity (S : Signatures) where
  accountId : Id
  sign : AuthorityMessage → Bytes
  verify_sign : ∀ message, S.verify accountId message (sign message) = .ok ()

def sortBy {α : Type} (key : α → Nat) (l : List α) : List α := l.insertionSort fun a b => key a ≤ key b

def validateRequestedCapabilities (capabilities : List DeviceCapability) : Checked Unit := do
  failIf (capabilities = []) .emptyDeviceCapabilities
  failIf (¬ capabilities.Nodup) .duplicateDeviceCapability

def canonicalCapabilities (capabilities : List DeviceCapability) : List DeviceCapability :=
  sortBy DeviceCapability.code capabilities

/-- The accounts in order, with the owner, each once. -/
def canonicalMembers (owner : Id) (members : List Id) : List Id := (sortBy BitVec.toNat (members ++ [owner])).dedup

section
variable {S : Signatures} (R : AccountRootIdentity S)

def DeviceCertificate.issue (deviceId encryptionPublicKey : Id) (authoritySequence : Nat)
    (capabilities : List DeviceCapability) : Checked DeviceCertificate := do
  validateRequestedCapabilities capabilities
  let content : DeviceCertificateContent := ⟨deviceCertificateVersion, R.accountId, deviceId,
    encryptionPublicKey, authoritySequence, canonicalCapabilities capabilities⟩
  validateCertificateContent content
  return ⟨content, R.sign (.certificate content)⟩

def DeviceRevocation.issue (deviceId : Id) (authoritySequence : Nat) : DeviceRevocation :=
  let content : DeviceRevocationContent := ⟨authorityVersion, R.accountId, deviceId, authoritySequence⟩
  ⟨content, R.sign (.revocation content)⟩

def AccountAuthoritySnapshot.issue (revision : Nat) (revocations : List DeviceRevocation) :
    Checked AccountAuthoritySnapshot := do
  let content : AccountAuthoritySnapshotContent := ⟨authorityVersion, R.accountId, revision, revocations⟩
  validateAuthoritySnapshotContent S content
  return ⟨content, R.sign (.authoritySnapshot content)⟩

def AccountDeviceListSnapshot.issue (authoritySnapshot : AccountAuthoritySnapshot)
    (devices : List DeviceCertificate) : Checked AccountDeviceListSnapshot := do
  let content : AccountDeviceListSnapshotContent := ⟨accountDeviceListVersion, authoritySnapshot,
    sortBy (fun certificate : DeviceCertificate => certificate.deviceId.toNat) devices⟩
  validateAccountDeviceListContent S content
  failIf (content.authoritySnapshot.accountId ≠ R.accountId)
    (.accountMismatch R.accountId content.authoritySnapshot.accountId)
  return ⟨content, R.sign (.deviceList content)⟩

def ConversationMembershipSnapshot.issue (conversationId : Id) (revision : Nat) (members : List Id) :
    Checked ConversationMembershipSnapshot := do
  let content : ConversationMembershipSnapshotContent := ⟨authorityVersion, conversationId, revision,
    R.accountId, members⟩
  validateConversationMembershipContent content
  return ⟨content, R.sign (.membership content)⟩

/-- A file that is written whole is kept by what it holds. A revocation file is named after its device
and a membership file after its conversation. Temporary files are only read where they lie among the
revocations; others are left out. -/
structure RootDirectory where
  logVersion : Option String
  /-- No file, an empty file, or a number. -/
  nextSequence : Option (Option Nat)
  revocations : List DeviceRevocation
  /-- Empty or written. -/
  revocationTemps : List (Option DeviceRevocation)
  deviceList : Option AccountDeviceListSnapshot
  memberships : List ConversationMembershipSnapshot
  deriving DecidableEq

namespace RootDirectory

/-- The directory of a new account. -/
def created : RootDirectory := ⟨some authorityLogVersion, none, [], [], none, []⟩

def readNextAuthoritySequence (d : RootDirectory) : Checked Nat :=
  match d.nextSequence with
  | none => .ok 0
  | some none => .error .invalidSequence
  | some (some next) => .ok next

def revocationEntries (d : RootDirectory) : List (Option DeviceRevocation) :=
  d.revocations.map some ++ d.revocationTemps

def decodeRevocation (S : Signatures) (entry : Option DeviceRevocation) : Checked DeviceRevocation := do
  let revocation ← okOr entry .malformedFile
  revocation.verify S
  return revocation

def authoritySnapshot (d : RootDirectory) : Checked AccountAuthoritySnapshot := do
  let revision ← d.readNextAuthoritySequence
  let revocations ← d.revocationEntries.mapM (decodeRevocation S)
  AccountAuthoritySnapshot.issue R revision
    (sortBy (fun revocation : DeviceRevocation => revocation.deviceId.toNat) revocations)

/-- Decoding verifies too. -/
def publishedDeviceList (d : RootDirectory) : Checked AccountDeviceListSnapshot := do
  let list ← okOr d.deviceList .accountDeviceListMissing
  list.verifyForAccount S R.accountId
  return list

def hasRevocation (d : RootDirectory) (device : Id) : Prop := device ∈ d.revocations.map (·.deviceId)
  deriving Decidable

def membershipOf (d : RootDirectory) (conversation : Id) : Option ConversationMembershipSnapshot :=
  d.memberships.find? fun membership => membership.conversationId = conversation

def loadRootConversationMembership (d : RootDirectory) (conversation : Id) :
    Checked ConversationMembershipSnapshot := do
  let membership ← okOr (d.membershipOf conversation) (.conversationMembershipMissing conversation)
  membership.verifyForOwner S R.accountId
  return membership

/-- The list to publish, and whether it has to be written. -/
def candidate (d : RootDirectory) (certificates : List DeviceCertificate) :
    Checked (AccountDeviceListSnapshot × Bool) := do
  let snapshot ← d.authoritySnapshot R
  let list ← AccountDeviceListSnapshot.issue R snapshot certificates
  match d.deviceList with
  | none => return (list, true)
  | some existing =>
    existing.verify S
    failIf (list.revision < existing.revision) (.accountDeviceListRollback existing.revision list.revision)
    if existing.revision = list.revision then
      failIf (existing ≠ list) (.accountDeviceListAlreadyPublished list.revision)
      return (existing, false)
    else
      return (list, true)

end RootDirectory

namespace AccountAuthoritySnapshot

def revokes (s : AccountAuthoritySnapshot) (device : Id) : Prop := device ∈ s.revocations.map (·.deviceId)
  deriving Decidable

end AccountAuthoritySnapshot

/-- The devices of the list that a snapshot does not revoke. -/
def AccountDeviceListSnapshot.active (l : AccountDeviceListSnapshot) (s : AccountAuthoritySnapshot) :
    List DeviceCertificate :=
  l.devices.filter fun certificate => ¬ s.revokes certificate.deviceId

inductive EnrollmentPlan where
  | keep (existing : DeviceCertificate) (list : AccountDeviceListSnapshot)
  | refresh (existing : DeviceCertificate) (active : List DeviceCertificate)
  | issue (others : List DeviceCertificate)

namespace RootDirectory

def planEnrollment (d : RootDirectory) (device encryptionPublicKey : Id)
    (capabilities : List DeviceCapability) : Checked EnrollmentPlan := do
  let current ← d.publishedDeviceList R
  let authority ← d.authoritySnapshot R
  match current.certificateFor device with
  | some existing =>
    failIf (existing.content.encryptionPublicKey ≠ encryptionPublicKey ∨ existing.content.capabilities ≠ capabilities)
      (.deviceEnrollmentIdentityConflict device)
    verifyDeviceAuthorizationWithSnapshot S R.accountId existing authority capabilities
    if current.revision = authority.revision then
      return .keep existing current
    else
      return .refresh existing (current.active authority)
  | none =>
    failIf (authority.revokes device) (.deviceRevoked device)
    failIf (maxAccountDevices ≤ (current.active authority).length)
      (.tooManyAccountDevices ((current.active authority).length + 1))
    return .issue (current.active authority)

/-- The list at the start of a removal, and the revocation if there is one. -/
def planRemoval (d : RootDirectory) (device : Id) :
    Checked (AccountDeviceListSnapshot × Option DeviceRevocation) := do
  let current ← d.publishedDeviceList R
  let authority ← d.authoritySnapshot R
  let existing := authority.revocations.find? fun revocation => revocation.deviceId = device
  failIf (existing = none ∧ current.certificateFor device = none) (.deviceNotActive device)
  failIf (existing = none ∧ (current.active authority).length ≤ 1) .cannotRemoveLastActiveDevice
  return (current, existing)

end RootDirectory

abbrev RootProg := Prog Unit RootDirectory IdentityError

/-- `acquire_authority_write_lock`, then the operation. Its last step is the return, before which the
process may die as well; the lock is free when the process has returned or died. -/
def locked {α : Type} (body : RootProg α) : RootProg α := do
  let free ← tryLock
  failIf (¬ free) .accountAuthorityWriteLocked
  let a ← body
  act id
  return a

def ensureAuthorityLogReady : RootProg Unit := do
  let d ← disk
  match d.logVersion with
  | some version =>
    failIf (version ≠ authorityLogVersion) (.unsupportedAuthorityLogVersion version)
  | none => do
    let next ← lift d.readNextAuthoritySequence
    failIf (next ≠ 0) .legacyAuthorityState
    act fun d => { d with logVersion := some authorityLogVersion }

/-- The file is emptied first and written then. -/
def allocateAuthoritySequence : RootProg Nat := do
  let d ← disk
  let current ← lift d.readNextAuthoritySequence
  failIf (¬ current + 1 < sequenceBound) .authoritySequenceExhausted
  act fun d => { d with nextSequence := some none }
  act fun d => { d with nextSequence := some (some (current + 1)) }
  return current

/-- `write_new_file`: a temporary file is made, written and renamed, unless the name is taken. -/
def writeRevocation (revocation : DeviceRevocation) : RootProg Unit := do
  lift (revocation.verify S)
  act fun d => { d with revocationTemps := d.revocationTemps ++ [none] }
  act fun d => { d with revocationTemps := d.revocationTemps.dropLast ++ [some revocation] }
  let d ← disk
  if d.hasRevocation revocation.deviceId then
    act fun d => { d with revocationTemps := d.revocationTemps.dropLast }
    fail .alreadyExists
  else
    act fun d => { d with
      revocationTemps := d.revocationTemps.dropLast, revocations := d.revocations ++ [revocation] }

def issueDeviceCertificateUnlocked (device encryptionPublicKey : Id)
    (capabilities : List DeviceCapability) : RootProg DeviceCertificate := do
  let sequence ← allocateAuthoritySequence
  lift (DeviceCertificate.issue R device encryptionPublicKey sequence capabilities)

def issueDeviceRevocationUnlocked (device : Id) : RootProg DeviceRevocation := do
  let sequence ← allocateAuthoritySequence
  let revocation := DeviceRevocation.issue R device sequence
  writeRevocation (S := S) revocation
  return revocation

def publishDeviceListUnlocked (certificates : List DeviceCertificate) : RootProg AccountDeviceListSnapshot := do
  let d ← disk
  let (list, fresh) ← lift (d.candidate R certificates)
  when (fresh = true) do
    lift (list.verify S)
    act fun d => { d with deviceList := some list }
  return list

inductive RootOperation where
  | enrollDevice (device encryptionPublicKey : Id) (capabilities : List DeviceCapability)
  | issueDeviceCertificate (device encryptionPublicKey : Id) (capabilities : List DeviceCapability)
  | revokeDevice (device : Id)
  | revokeAndPublishDeviceList (device : Id)
  | authoritySnapshot
  | publishDeviceList (certificates : List DeviceCertificate)
  | createConversationMembership (conversation : Id) (members : List Id)
  | addConversationMembers (conversation : Id) (additions : List Id)

inductive RootAnswer where
  | enrolled (certificate : DeviceCertificate) (list : AccountDeviceListSnapshot)
  | certificate (certificate : DeviceCertificate)
  | revocation (revocation : DeviceRevocation)
  | removed (revocation : DeviceRevocation) (list : AccountDeviceListSnapshot)
  | snapshot (snapshot : AccountAuthoritySnapshot)
  | list (list : AccountDeviceListSnapshot)
  | membership (membership : ConversationMembershipSnapshot)
  deriving DecidableEq

def enrollDevice (device encryptionPublicKey : Id) (capabilities : List DeviceCapability) : RootProg RootAnswer := do
  ensureAuthorityLogReady
  lift (validateRequestedCapabilities capabilities)
  locked do
    let d ← disk
    match ← lift (d.planEnrollment R device encryptionPublicKey (canonicalCapabilities capabilities)) with
    | .keep existing list => return .enrolled existing list
    | .refresh existing active => do
      let list ← publishDeviceListUnlocked R active
      return .enrolled existing list
    | .issue others => do
      let certificate ← issueDeviceCertificateUnlocked R device encryptionPublicKey
        (canonicalCapabilities capabilities)
      let list ← publishDeviceListUnlocked R (others ++ [certificate])
      return .enrolled certificate list

def issueDeviceCertificate (device encryptionPublicKey : Id) (capabilities : List DeviceCapability) :
    RootProg RootAnswer := do
  ensureAuthorityLogReady
  lift (validateRequestedCapabilities capabilities)
  locked do
    let certificate ← issueDeviceCertificateUnlocked R device encryptionPublicKey capabilities
    return .certificate certificate

def revokeDevice (device : Id) : RootProg RootAnswer := do
  ensureAuthorityLogReady
  locked do
    let d ← disk
    failIf (d.hasRevocation device) (.deviceAlreadyRevoked device)
    let revocation ← issueDeviceRevocationUnlocked R device
    return .revocation revocation

def revokeAndPublishDeviceList (device : Id) : RootProg RootAnswer := do
  ensureAuthorityLogReady
  locked do
    let d ← disk
    let (current, existing) ← lift (d.planRemoval R device)
    let revocation ← match existing with
      | some revocation => pure revocation
      | none => issueDeviceRevocationUnlocked R device
    let d ← disk
    let authority ← lift (d.authoritySnapshot R)
    failIf (current.active authority = []) .cannotRemoveLastActiveDevice
    if current.revision = authority.revision ∧ current.certificateFor device = none then
      return .removed revocation current
    else
      let list ← publishDeviceListUnlocked R (current.active authority)
      return .removed revocation list

/-- No lock is taken. -/
def authoritySnapshot : RootProg RootAnswer := do
  ensureAuthorityLogReady
  let d ← disk
  let snapshot ← lift (d.authoritySnapshot R)
  return .snapshot snapshot

def publishDeviceList (certificates : List DeviceCertificate) : RootProg RootAnswer := do
  ensureAuthorityLogReady
  locked do
    let list ← publishDeviceListUnlocked R certificates
    return .list list

def createConversationMembership (conversation : Id) (members : List Id) : RootProg RootAnswer := do
  ensureAuthorityLogReady
  locked do
    let d ← disk
    failIf (d.membershipOf conversation ≠ none) (.conversationMembershipAlreadyExists conversation)
    let membership ← lift (ConversationMembershipSnapshot.issue R conversation 1
      (canonicalMembers R.accountId members))
    lift (membership.verify S)
    act fun d => { d with memberships := d.memberships ++ [membership] }
    return .membership membership

def addConversationMembers (conversation : Id) (additions : List Id) : RootProg RootAnswer := do
  ensureAuthorityLogReady
  locked do
    let d ← disk
    let current ← lift (d.loadRootConversationMembership R conversation)
    let members := canonicalMembers current.content.ownerAccountId (current.members ++ additions)
    if members = current.members then
      return .membership current
    else
      failIf (¬ current.revision + 1 < sequenceBound) .conversationMembershipRevisionExhausted
      let membership ← lift (ConversationMembershipSnapshot.issue R conversation (current.revision + 1)
        members)
      lift (membership.verify S)
      act fun d => { d with memberships :=
        d.memberships.filter (fun m => m.conversationId ≠ conversation) ++ [membership] }
      return .membership membership

def RootOperation.run : RootOperation → RootProg RootAnswer
  | .enrollDevice device key capabilities => Identity.enrollDevice R device key capabilities
  | .issueDeviceCertificate device key capabilities =>
    Identity.issueDeviceCertificate R device key capabilities
  | .revokeDevice device => Identity.revokeDevice R device
  | .revokeAndPublishDeviceList device => Identity.revokeAndPublishDeviceList R device
  | .authoritySnapshot => Identity.authoritySnapshot R
  | .publishDeviceList certificates => Identity.publishDeviceList R certificates
  | .createConversationMembership conversation members =>
    Identity.createConversationMembership R conversation members
  | .addConversationMembers conversation additions =>
    Identity.addConversationMembers R conversation additions

abbrev RootCall := Call RootOperation

/-- Operations on one directory after one another, each to its end or until its process dies. -/
def rootService : Service RootDirectory RootCall (Except (Stop IdentityError) RootAnswer) :=
  serial (RootOperation.run R) () .created

/-- Operations of several processes on one directory. -/
def rootProcesses : Service (World Unit RootDirectory IdentityError RootAnswer RootOperation) (Event RootOperation)
    (Option (RootOperation × Checked RootAnswer)) :=
  interleaved (RootOperation.run R) () .created

end
end Kilogram.Identity
