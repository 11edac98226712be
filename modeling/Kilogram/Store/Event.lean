import Kilogram.Vault.Types

/-!
# Signed and authorized events

An event names its conversation, its author device with a sequence number and its parents, and
carries a message for the devices of the recipient. Signatures, certificates and the hash are
parameters; the checks the protocol makes around them are modelled as written.
-/

namespace Kilogram.Store
open Kilogram
open Except (failIf)

def eventVersion : UInt8 := 5
def maxParents : Nat := 64
def maxAccountDevices : Nat := 32
def ciphertextVersion : UInt8 := 1
def maxRatchetCiphertextBytes : Nat := 128 * 1024

structure RatchetCiphertext where
  (version messageType : UInt8)
  ciphertext : Bytes
  deriving DecidableEq

structure RatchetRecipient where
  deviceId : Id
  ciphertext : RatchetCiphertext
  deriving DecidableEq

/-- A root-signed list of devices; what no check reads stays in its encoding. -/
structure AccountDeviceListSnapshot where
  devices : List Id
  encoded : Bytes
  deriving DecidableEq

structure SignedRatchetIdentity where
  deviceId : Id
  encoded : Bytes
  deriving DecidableEq

inductive EventPayload where
  | ratchetText (recipientDeviceList : AccountDeviceListSnapshot)
      (senderRatchetIdentity : SignedRatchetIdentity) (recipients : List RatchetRecipient)
  | acknowledgement (acknowledgedEventId : Id)
  deriving DecidableEq

structure EventContent where
  version : UInt8
  (conversationId authorDeviceId : Id)
  authorSequence : UInt64
  parents : List Id
  payload : EventPayload
  deriving DecidableEq

structure SignedEvent where
  content : EventContent
  signature : Bytes
  deriving DecidableEq

structure DeviceCertificate where
  (deviceId accountId : Id)
  encoded : Bytes
  deriving DecidableEq

structure AccountAuthoritySnapshot where
  encoded : Bytes
  deriving DecidableEq

structure AuthorizedEvent where
  event : SignedEvent
  authorCertificate : DeviceCertificate
  authorAuthoritySnapshot : AccountAuthoritySnapshot
  deriving DecidableEq

structure ConversationMembershipSnapshot where
  conversationId : Id
  members : List Id
  encoded : Bytes

inductive ProtocolError where
  | unsupportedEventVersion (version : UInt8)
  | tooManyParents (count : Nat)
  | duplicateParent
  | unsupportedCiphertextVersion (version : UInt8)
  | invalidCiphertextLength (length : Nat)
  | invalidOlmMessage
  | invalidRatchetIdentity
  | ratchetIdentityAuthorMismatch
  | invalidDeviceList
  | emptyRatchetRecipients
  | tooManyRatchetRecipients (count : Nat)
  | encryptedRecipientIsAuthor (device : Id)
  | duplicateRatchetRecipient (device : Id)
  | nonCanonicalRatchetRecipients
  | ratchetRecipientDeviceListMismatch
  | invalidSignature
  | eventAuthorCertificateMismatch
  | unauthorizedDevice
  | eventConversationMembershipMismatch
  | invalidMembership
  | accountNotConversationMember (account : Id)
  | tooManyInventoryEventIds (count : Nat)
  | tooManySyncEventIds (count : Nat)
  | tooManySyncEvents (count : Nat)
  | duplicateSyncEventId (id : Id)
  | syncConversationMismatch (id : Id)
  | syncSessionMismatch
  | syncResponderMismatch
  deriving DecidableEq

abbrev Checked (α : Type) := Except ProtocolError α

/-- What the identity and ratchet crates decide about signed objects, and the hash. -/
class Authority where
  hash : Bytes → Id
  sign : Id → Bytes → Bytes
  verify : Id → Bytes → Bytes → Bool
  olmMessage : UInt8 → Bytes → Bool
  ratchetIdentity : SignedRatchetIdentity → Bool
  deviceList : AccountDeviceListSnapshot → Bool
  maySignEvents : DeviceCertificate → AccountAuthoritySnapshot → Bool
  membership : ConversationMembershipSnapshot → Bool

/-- Objects are what they claim to be, and the hash keeps the last thirty-two bytes. -/
@[reducible] def Authority.plain : Authority where
  hash bs := BitVec.ofNat 256 (Bytes.toNat bs)
  sign _ _ := []
  verify _ _ _ := true
  olmMessage _ _ := true
  ratchetIdentity _ := true
  deviceList _ := true
  maySignEvents _ _ := true
  membership _ := true

def RatchetRecipient.encode (r : RatchetRecipient) : Bytes :=
  r.deviceId.bytes ++ [r.ciphertext.version, r.ciphertext.messageType] ++ Postcard.bytes r.ciphertext.ciphertext

def EventPayload.encode : EventPayload → Bytes
  | .ratchetText devices identity recipients =>
    Postcard.varint 0 ++ devices.encoded ++ identity.encoded ++ Postcard.list RatchetRecipient.encode recipients
  | .acknowledgement id => Postcard.varint 1 ++ id.bytes

def EventContent.encode (c : EventContent) : Bytes :=
  [c.version] ++ c.conversationId.bytes ++ c.authorDeviceId.bytes ++
    Postcard.varint c.authorSequence.toNat ++ Postcard.list Id.bytes c.parents ++ c.payload.encode

namespace SignedEvent

def encode (e : SignedEvent) : Bytes := e.content.encode ++ Postcard.bytes e.signature
def conversationId (e : SignedEvent) : Id := e.content.conversationId

/-- The place of an event in the sequence of its author. -/
def position (e : SignedEvent) : Id × UInt64 := (e.content.authorDeviceId, e.content.authorSequence)
def parents (e : SignedEvent) : List Id := e.content.parents

end SignedEvent

def AuthorizedEvent.encodedBytes (e : AuthorizedEvent) : Bytes :=
  e.event.encode ++ e.authorCertificate.encoded ++ e.authorAuthoritySnapshot.encoded

variable [Authority]

def eventSignatureDomain : Bytes := ("kilogram:event-signature:v5\x00".toUTF8).toList
def eventIdDomain : Bytes := ("kilogram:event-id:v5\x00".toUTF8).toList

def RatchetCiphertext.validate (c : RatchetCiphertext) : Checked Unit := do
  failIf (c.version ≠ ciphertextVersion) (.unsupportedCiphertextVersion c.version)
  failIf (c.ciphertext = [] ∨ c.ciphertext.length > maxRatchetCiphertextBytes)
    (.invalidCiphertextLength c.ciphertext.length)
  failIf (Authority.olmMessage c.messageType c.ciphertext = false) .invalidOlmMessage

/-- Recipients stand in the order of their device ids, each once. -/
def checkRecipientOrder : List RatchetRecipient → Checked Unit
  | a :: b :: rest => do
    failIf (a.deviceId = b.deviceId) (.duplicateRatchetRecipient a.deviceId)
    failIf (a.deviceId > b.deviceId) .nonCanonicalRatchetRecipients
    checkRecipientOrder (b :: rest)
  | _ => return ()

def checkRecipient (author : Id) (r : RatchetRecipient) : Checked Unit := do
  failIf (r.deviceId = author) (.encryptedRecipientIsAuthor r.deviceId)
  r.ciphertext.validate

def validatePayload (author : Id) : EventPayload → Checked Unit
  | .acknowledgement _ => return ()
  | .ratchetText devices identity recipients => do
    failIf (Authority.ratchetIdentity identity = false) .invalidRatchetIdentity
    failIf (identity.deviceId ≠ author) .ratchetIdentityAuthorMismatch
    failIf (Authority.deviceList devices = false) .invalidDeviceList
    failIf (recipients = []) .emptyRatchetRecipients
    failIf (recipients.length > maxAccountDevices) (.tooManyRatchetRecipients recipients.length)
    recipients.forM (checkRecipient author)
    checkRecipientOrder recipients
    failIf (devices.devices ≠ recipients.map RatchetRecipient.deviceId)
      .ratchetRecipientDeviceListMismatch

def validateContent (c : EventContent) : Checked Unit := do
  failIf (c.version ≠ eventVersion) (.unsupportedEventVersion c.version)
  failIf (c.parents.length > maxParents) (.tooManyParents c.parents.length)
  failIf (¬ c.parents.Nodup) .duplicateParent
  validatePayload c.authorDeviceId c.payload

namespace SignedEvent

def verify (e : SignedEvent) : Checked Unit := do
  validateContent e.content
  failIf (Authority.verify e.content.authorDeviceId
    (eventSignatureDomain ++ e.content.encode) e.signature = false) .invalidSignature

def eventId (e : SignedEvent) : Id := Authority.hash (eventIdDomain ++ e.encode)

end SignedEvent

namespace ConversationMembershipSnapshot

def verify (m : ConversationMembershipSnapshot) : Checked Unit :=
  failIf (Authority.membership m = false) .invalidMembership

def requireMember (m : ConversationMembershipSnapshot) (account : Id) : Checked Unit := do
  m.verify
  failIf (account ∉ m.members) (.accountNotConversationMember account)

end ConversationMembershipSnapshot

namespace AuthorizedEvent

def verifyAuthor (e : AuthorizedEvent) : Checked Unit := do
  e.event.verify
  failIf (e.authorCertificate.deviceId ≠ e.event.content.authorDeviceId)
    .eventAuthorCertificateMismatch
  failIf (Authority.maySignEvents e.authorCertificate e.authorAuthoritySnapshot = false)
    .unauthorizedDevice

def verifyForMembership (e : AuthorizedEvent) (m : ConversationMembershipSnapshot) : Checked Unit := do
  e.verifyAuthor
  failIf (m.conversationId ≠ e.event.conversationId) .eventConversationMembershipMismatch
  m.requireMember e.authorCertificate.accountId

end AuthorizedEvent
end Kilogram.Store
