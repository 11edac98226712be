import Kilogram.Mailbox.Store

/-!
# Requests and responses on the wire

What a client sends to a mailbox store and what it accepts in return. Encoding and decoding validate
as the methods below do; the sizes they bound are never reached by what is validated.
-/

namespace Kilogram.Mailbox
open Except (failIf)

def wireVersion : UInt8 := 1

structure MailboxPutRequest where
  version : UInt8
  address : MailboxAddress
  authorization : MailboxWriteAuthorization
  envelope : Bytes
  deriving DecidableEq

section
variable (P : Primitives)

namespace MailboxPutRequest

def validate (r : MailboxPutRequest) : Checked Unit := do
  failIf (r.version ≠ wireVersion) (.invalid "unsupported mailbox put request version")
  r.authorization.verify P r.address r.envelope

def mailboxId (r : MailboxPutRequest) : Id := r.address.mailboxId P
def itemId (r : MailboxPutRequest) : Id := r.authorization.content.itemId
def itemKey (r : MailboxPutRequest) : ItemKey := ⟨r.mailboxId P, r.itemId⟩

end MailboxPutRequest

inductive MailboxPutResponse where
  | stored (version : UInt8) (created : Bool) (receipt : MailboxStoredReceipt)
  | conflict (version : UInt8)
  | tombstoned (version : UInt8)
  | capacityExceeded (version : UInt8)

namespace MailboxPutResponse

def version : MailboxPutResponse → UInt8
  | .stored version _ _ => version
  | .conflict version => version
  | .tombstoned version => version
  | .capacityExceeded version => version

def storedReceipt : MailboxPutResponse → Option MailboxStoredReceipt
  | .stored _ _ receipt => some receipt
  | _ => none

def verify (r : MailboxPutResponse) (request : MailboxPutRequest) (expectedStoreKey : Id) : Checked Unit := do
  request.validate P
  failIf (r.version ≠ wireVersion) (.invalid "unsupported mailbox put response version")
  match r.storedReceipt with
  | none => return
  | some receipt =>
    receipt.verify P request.envelope
    failIf (receipt.content.storeKey ≠ expectedStoreKey ∨
        receipt.content.mailboxId ≠ request.mailboxId P ∨ receipt.content.itemId ≠ request.itemId)
      (.invalid "mailbox put receipt does not match request or store")

end MailboxPutResponse

structure MailboxDeleteRequest where
  version : UInt8
  address : MailboxAddress
  authorization : MailboxReadAuthorization

namespace MailboxDeleteRequest

def validate (r : MailboxDeleteRequest) : Checked Unit := do
  failIf (r.version ≠ wireVersion) (.invalid "unsupported mailbox delete request version")
  r.authorization.verify P r.address
  match r.authorization.content.operation with
  | .delete .. => return
  | .list .. => throw (.invalid "mailbox delete request has another operation")

def new (address : MailboxAddress) (authorization : MailboxReadAuthorization) : Checked MailboxDeleteRequest := do
  let request : MailboxDeleteRequest := ⟨wireVersion, address, authorization⟩
  request.validate P
  return request

def mailboxId (r : MailboxDeleteRequest) : Id := r.address.mailboxId P

/-- The item and the receipt of a deletion. The source stops on another operation, which no request
that was validated has. -/
def deletion (r : MailboxDeleteRequest) : Option (Id × MailboxReceiptId) :=
  match r.authorization.content.operation with
  | .delete itemId receiptId => some (itemId, receiptId)
  | .list .. => none

end MailboxDeleteRequest

inductive MailboxDeleteResponse where
  | deleted (version : UInt8) (newlyDeleted : Bool) (receipt : MailboxDeleteReceipt)
  | absent (version : UInt8)
  | receiptMismatch (version : UInt8)
  | tombstoneCapacityExceeded (version : UInt8)

namespace MailboxDeleteResponse

def version : MailboxDeleteResponse → UInt8
  | .deleted version _ _ => version
  | .absent version => version
  | .receiptMismatch version => version
  | .tombstoneCapacityExceeded version => version

def deleteReceipt : MailboxDeleteResponse → Option MailboxDeleteReceipt
  | .deleted _ _ receipt => some receipt
  | _ => none

def verify (r : MailboxDeleteResponse) (request : MailboxDeleteRequest) (expectedStoreKey : Id) : Checked Unit := do
  request.validate P
  failIf (r.version ≠ wireVersion) (.invalid "unsupported mailbox delete response version")
  match r.deleteReceipt with
  | none => return
  | some receipt =>
    receipt.verify P
    failIf (receipt.content.storeKey ≠ expectedStoreKey ∨ receipt.content.mailboxId ≠ request.mailboxId P ∨
        request.deletion ≠ some (receipt.content.itemId, receipt.content.storedReceiptId))
      (.invalid "mailbox delete receipt does not match request or store")

end MailboxDeleteResponse

/-- The capability to read a mailbox: the key that signs lists and deletions. -/
structure MailboxReadCapability where
  readKey : Id
  sign : Message → Bytes

namespace MailboxReadCapability

def authorize (c : MailboxReadCapability) (address : MailboxAddress)
    (operation : MailboxReadOperation) : Checked MailboxReadAuthorization := do
  address.verify P
  failIf (address.readKey ≠ c.readKey) .capabilityMismatch
  let content : MailboxReadAuthorizationContent := ⟨Mailbox.version, address.mailboxId P, c.readKey, operation⟩
  return ⟨content, c.sign (.read content)⟩

def authorizeDelete (c : MailboxReadCapability) (address : MailboxAddress) (itemId : Id)
    (receiptId : MailboxReceiptId) : Checked MailboxReadAuthorization :=
  c.authorize P address (.delete itemId receiptId)

end MailboxReadCapability
end
end Kilogram.Mailbox
