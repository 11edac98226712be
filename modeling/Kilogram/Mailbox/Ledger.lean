import Kilogram.Mailbox.Replication

/-!
# The client ledger

An outbound item is pending until a store has taken it, by HTTPS or by a set of volunteers, and is then
stored.
-/

namespace Kilogram.Mailbox
open Std
open Except (okOr)

def minReplicatedOutboundReceipts : Nat := 2
def maxReplicatedOutboundReceipts : Nat := 8

structure MailboxClientLedgerConfig where
  (maxPendingUploads maxRetainedReceipts maxInboundCommits : Nat)

def MailboxClientLedgerConfig.validate (c : MailboxClientLedgerConfig) : Result Unit := do
  ensure (1 ≤ c.maxPendingUploads ∧ c.maxPendingUploads ≤ maxAbsoluteRecords)
    "mailbox client pending upload limit is invalid"
  ensure (1 ≤ c.maxRetainedReceipts ∧ c.maxRetainedReceipts ≤ maxAbsoluteRecords)
    "mailbox client retained receipt limit is invalid"
  ensure (1 ≤ c.maxInboundCommits ∧ c.maxInboundCommits ≤ maxAbsoluteRecords)
    "mailbox client inbound commit limit is invalid"

section
variable (P : Primitives)

structure PendingOutboundRecord where
  version : UInt8
  request : MailboxPutRequest
  expectedStoreKey : Id
  queuedAtUnixSeconds : Nat
  deriving DecidableEq

namespace PendingOutboundRecord

def itemKey (r : PendingOutboundRecord) : ItemKey := r.request.itemKey P

def validate (r : PendingOutboundRecord) : Result Unit := do
  ensure (r.version = recordVersion) "unsupported pending mailbox record"
  (r.request.validate P).context none

def decode (r : PendingOutboundRecord) : Result PendingOutboundRecord := do
  r.validate P
  return r

end PendingOutboundRecord

structure StoredOutboundReceipt where
  version : UInt8
  (mailboxId itemId : Id)
  requestDigest : MailboxPutRequest
  expectedStoreKey : Id
  receipt : MailboxStoredReceipt
  recordedAtUnixSeconds : Nat
  deriving DecidableEq

namespace StoredOutboundReceipt

def validate (r : StoredOutboundReceipt) : Result Unit := do
  ensure (r.version = recordVersion) "unsupported stored mailbox receipt"
  (r.receipt.verifySignature P).context none
  ensure (r.receipt.content.mailboxId = r.mailboxId ∧ r.receipt.content.itemId = r.itemId ∧
      r.receipt.content.storeKey = r.expectedStoreKey)
    "stored outbound mailbox receipt is inconsistent"

def decode (r : StoredOutboundReceipt) : Result StoredOutboundReceipt := do
  r.validate P
  return r

/-- Equal but for the time. -/
def sameLogicalRecord (r other : StoredOutboundReceipt) : Prop :=
  r.version = other.version ∧ r.mailboxId = other.mailboxId ∧ r.itemId = other.itemId ∧
    r.requestDigest = other.requestDigest ∧ r.expectedStoreKey = other.expectedStoreKey ∧
    r.receipt = other.receipt
  deriving Decidable

end StoredOutboundReceipt

structure ReplicatedOutboundReceipt where
  transportIdentity : Id
  receipt : MailboxStoredReceipt
  deriving DecidableEq

structure ReplicatedOutboundCommit where
  version : UInt8
  (mailboxId itemId : Id)
  requestDigest : MailboxPutRequest
  (expectedServiceStoreKey dispatchBinding replicaSetCommitmentId : Id)
  replicaSetStoreKeys : List Id
  requiredReceipts : Nat
  receipts : List ReplicatedOutboundReceipt
  (recordedAtUnixSeconds expiresAtUnixSeconds : Nat)
  deriving DecidableEq

namespace ReplicatedOutboundCommit

/-- The evidence one by one, each from a transport of its own. The store keys ascend, so that the binary
search of the source finds the members. -/
def checkReceipts (r : ReplicatedOutboundCommit) :
    List ReplicatedOutboundReceipt → (transports : List Id) → Result Unit
  | [], _ => return
  | evidence :: rest, transports => do
    (evidence.receipt.verifySignature P).context none
    ensure (evidence.transportIdentity ≠ 0 ∧ evidence.receipt.content.mailboxId = r.mailboxId ∧
        evidence.receipt.content.itemId = r.itemId ∧
        evidence.receipt.content.expiresAtUnixSeconds ≥ r.expiresAtUnixSeconds ∧
        evidence.receipt.content.storeKey ∈ r.replicaSetStoreKeys ∧
        evidence.transportIdentity ∉ transports)
      "replicated outbound mailbox receipt is inconsistent"
    checkReceipts r rest (evidence.transportIdentity :: transports)

def validate (r : ReplicatedOutboundCommit) : Result Unit := do
  ensure (r.version = recordVersion ∧ r.dispatchBinding ≠ 0 ∧ r.replicaSetCommitmentId ≠ 0 ∧
      (minReplicatedOutboundReceipts ≤ r.requiredReceipts ∧ r.requiredReceipts ≤ maxReplicatedOutboundReceipts) ∧
      r.requiredReceipts ≤ r.receipts.length ∧ r.receipts.length ≤ r.replicaSetStoreKeys.length ∧
      r.replicaSetStoreKeys.length ≤ maxReplicatedOutboundReceipts ∧
      r.recordedAtUnixSeconds < r.expiresAtUnixSeconds ∧
      r.replicaSetStoreKeys.IsChain (· < ·) ∧
      r.receipts.IsChain fun a b => a.receipt.content.storeKey < b.receipt.content.storeKey)
    "replicated outbound mailbox commit metadata is invalid"
  r.checkReceipts P r.receipts []

def decode (r : ReplicatedOutboundCommit) : Result ReplicatedOutboundCommit := do
  r.validate P
  return r

def sameLogicalRecord (r other : ReplicatedOutboundCommit) : Prop :=
  r.version = other.version ∧ r.mailboxId = other.mailboxId ∧ r.itemId = other.itemId ∧
    r.requestDigest = other.requestDigest ∧
    r.expectedServiceStoreKey = other.expectedServiceStoreKey ∧
    r.dispatchBinding = other.dispatchBinding ∧
    r.replicaSetCommitmentId = other.replicaSetCommitmentId ∧
    r.replicaSetStoreKeys = other.replicaSetStoreKeys ∧ r.requiredReceipts = other.requiredReceipts ∧
    r.receipts = other.receipts ∧ r.expiresAtUnixSeconds = other.expiresAtUnixSeconds
  deriving Decidable

end ReplicatedOutboundCommit

inductive DurableOutboundRecord where
  | https (record : StoredOutboundReceipt)
  | exactVolunteer (record : ReplicatedOutboundCommit)

namespace DurableOutboundRecord

def validate : DurableOutboundRecord → Result Unit
  | .https record => record.validate P
  | .exactVolunteer record => record.validate P

def decode (r : DurableOutboundRecord) : Result DurableOutboundRecord := do
  r.validate P
  return r

def requestDigest : DurableOutboundRecord → MailboxPutRequest
  | .https record => record.requestDigest
  | .exactVolunteer record => record.requestDigest

def expectedServiceStoreKey : DurableOutboundRecord → Id
  | .https record => record.expectedStoreKey
  | .exactVolunteer record => record.expectedServiceStoreKey

def expiresAtUnixSeconds : DurableOutboundRecord → Nat
  | .https record => record.receipt.content.expiresAtUnixSeconds
  | .exactVolunteer record => record.expiresAtUnixSeconds

end DurableOutboundRecord

structure InboundCommitRecord where
  version : UInt8
  (mailboxId itemId expectedStoreKey : Id)
  storedReceipt : MailboxStoredReceipt
  applicationCommitId : Id
  committedAtUnixSeconds : Nat

namespace InboundCommitRecord

def itemKey (r : InboundCommitRecord) : ItemKey := ⟨r.mailboxId, r.itemId⟩

def validate (r : InboundCommitRecord) : Result Unit := do
  ensure (r.version = recordVersion) "unsupported inbound mailbox commit"
  (r.storedReceipt.verifySignature P).context none
  ensure (r.storedReceipt.content.mailboxId = r.mailboxId ∧ r.storedReceipt.content.itemId = r.itemId ∧
      r.storedReceipt.content.storeKey = r.expectedStoreKey)
    "inbound mailbox commit receipt is inconsistent"

def decode (r : InboundCommitRecord) : Result InboundCommitRecord := do
  r.validate P
  return r

def sameLogicalRecord (r other : InboundCommitRecord) : Prop :=
  r.version = other.version ∧ r.mailboxId = other.mailboxId ∧ r.itemId = other.itemId ∧
    r.expectedStoreKey = other.expectedStoreKey ∧ r.storedReceipt = other.storedReceipt ∧
    r.applicationCommitId = other.applicationCommitId
  deriving Decidable

end InboundCommitRecord

structure DeletedInboundRecord where
  version : UInt8
  (mailboxId itemId expectedStoreKey : Id)
  storedReceiptId : MailboxReceiptId
  deleteReceipt : MailboxDeleteReceipt
  recordedAtUnixSeconds : Nat

namespace DeletedInboundRecord

def itemKey (r : DeletedInboundRecord) : ItemKey := ⟨r.mailboxId, r.itemId⟩

def validate (r : DeletedInboundRecord) : Result Unit := do
  ensure (r.version = recordVersion) "unsupported deleted mailbox record"
  (r.deleteReceipt.verify P).context none
  ensure (r.deleteReceipt.content.mailboxId = r.mailboxId ∧ r.deleteReceipt.content.itemId = r.itemId ∧
      r.deleteReceipt.content.storeKey = r.expectedStoreKey ∧
      r.deleteReceipt.content.storedReceiptId = r.storedReceiptId)
    "deleted inbound mailbox receipt is inconsistent"

def decode (r : DeletedInboundRecord) : Result DeletedInboundRecord := do
  r.validate P
  return r

def sameLogicalRecord (r other : DeletedInboundRecord) : Prop :=
  r.version = other.version ∧ r.mailboxId = other.mailboxId ∧ r.itemId = other.itemId ∧
    r.expectedStoreKey = other.expectedStoreKey ∧ r.storedReceiptId = other.storedReceiptId ∧
    r.deleteReceipt = other.deleteReceipt
  deriving Decidable

end DeletedInboundRecord

inductive OutboundEnqueueOutcome where
  | created
  | alreadyPending
  | alreadyStored
  | capacityExceeded
  | conflict
  deriving DecidableEq

structure ClientTables where
  pendingOutbound : TreeMap ItemKey PendingOutboundRecord
  storedOutbound : TreeMap ItemKey DurableOutboundRecord
  inboundCommits : TreeMap ItemKey InboundCommitRecord
  deletedInbound : TreeMap ItemKey DeletedInboundRecord

def ClientTables.empty : ClientTables := ⟨∅, ∅, ∅, ∅⟩

structure MailboxClientLedger where
  config : MailboxClientLedgerConfig
  valid : config.validate = .ok ()

namespace MailboxClientLedger

def pendingRecord (request : MailboxPutRequest) (expectedStoreKey : Id) (queuedAtUnixSeconds : Nat) :
    PendingOutboundRecord :=
  ⟨recordVersion, request, expectedStoreKey, queuedAtUnixSeconds⟩

/-- A pending upload is compared with the one in the table as bytes, which determine the record. -/
def enqueueOutbound (L : MailboxClientLedger) (request : MailboxPutRequest) (expectedStoreKey : Id)
    (queuedAtUnixSeconds : Nat) (t : ClientTables) :
    Result (OutboundEnqueueOutcome × ClientTables) := do
  let record ← (pendingRecord request expectedStoreKey queuedAtUnixSeconds).decode P
  match t.storedOutbound[record.itemKey P]? with
  | some current =>
    let current ← current.decode P
    if current.requestDigest = record.request ∧ current.expectedServiceStoreKey = expectedStoreKey then
      return (.alreadyStored, t)
    else
      return (.conflict, t)
  | none =>
    match t.pendingOutbound[record.itemKey P]? with
    | some current =>
      if current = record then
        return (.alreadyPending, t)
      else
        return (.conflict, t)
    | none =>
      if t.pendingOutbound.size ≥ L.config.maxPendingUploads then
        return (.capacityExceeded, t)
      else
        return (.created,
          { t with pendingOutbound := t.pendingOutbound.insert (record.itemKey P) record })

def complete (L : MailboxClientLedger) (key : ItemKey) (record : DurableOutboundRecord)
    (exceeded : String) (t : ClientTables) : Result ClientTables := do
  ensure (t.storedOutbound.size < L.config.maxRetainedReceipts) exceeded
  return { t with
    storedOutbound := t.storedOutbound.insert key record
    pendingOutbound := t.pendingOutbound.erase key }

def storedRecord (request : MailboxPutRequest) (response : MailboxPutResponse) (expectedStoreKey : Id)
    (recordedAtUnixSeconds : Nat) : Result StoredOutboundReceipt := do
  let receipt ← okOr response.storedReceipt (.failed "mailbox put response does not prove durable acceptance")
  (response.verify P request expectedStoreKey).context none
  StoredOutboundReceipt.decode P ⟨recordVersion, request.mailboxId P, request.itemId, request,
    expectedStoreKey, receipt, recordedAtUnixSeconds⟩

def markOutboundStored (L : MailboxClientLedger) (request : MailboxPutRequest)
    (response : MailboxPutResponse) (expectedStoreKey : Id) (recordedAtUnixSeconds : Nat)
    (t : ClientTables) : Result (StoredOutboundReceipt × ClientTables) := do
  let record ← storedRecord P request response expectedStoreKey recordedAtUnixSeconds
  match t.pendingOutbound[request.itemKey P]? with
  | some pending =>
    let pending ← pending.decode P
    ensure (pending.request = request ∧ pending.expectedStoreKey = expectedStoreKey)
      "pending mailbox upload changed before receipt commit"
    let t' ← L.complete (request.itemKey P) (.https record)
      "stored mailbox receipt capacity exceeded" t
    return (record, t')
  | none =>
    let current ← okOr t.storedOutbound[request.itemKey P]?
      (.failed "pending mailbox upload disappeared before receipt commit")
    let current ← current.decode P
    match current with
    | .https current =>
      ensure (current.sameLogicalRecord record) "stored mailbox receipt replay conflicts"
      return (current, t)
    | .exactVolunteer _ =>
      throw (.failed "mailbox item already completed by exact volunteer replication")

/-- What the arguments of an exact replication commit amount to: the keys and the evidence in order. -/
def replicatedRecord (request : MailboxPutRequest)
    (expectedServiceStoreKey dispatchBinding replicaSetCommitmentId : Id)
    (replicaSetStoreKeys : List Id) (requiredReceipts : Nat)
    (receipts : List (Id × MailboxStoredReceipt)) (recordedAtUnixSeconds : Nat) :
    Result ReplicatedOutboundCommit := do
  (request.validate P).context none
  let envelope ← (MailboxEnvelope.decode P request.envelope).context none
  let canonicalStoreKeys := replicaSetStoreKeys.mergeSort fun a b => decide (a ≤ b)
  ensure (canonicalStoreKeys.length = replicaSetStoreKeys.length ∧ canonicalStoreKeys.IsChain (· < ·))
    "exact replica-set store keys are not unique"
  let evidence : List ReplicatedOutboundReceipt := receipts.map fun r => ⟨r.1, r.2⟩
  let canonicalReceipts := evidence.mergeSort fun a b =>
    decide (a.receipt.content.storeKey ≤ b.receipt.content.storeKey)
  forM canonicalReceipts fun evidence => (evidence.receipt.verify P request.envelope).context none
  ReplicatedOutboundCommit.decode P ⟨recordVersion, request.mailboxId P, request.itemId, request,
    expectedServiceStoreKey, dispatchBinding, replicaSetCommitmentId, canonicalStoreKeys,
    requiredReceipts, canonicalReceipts, recordedAtUnixSeconds, envelope.context.expiresAtUnixSeconds⟩

def markOutboundReplicated (L : MailboxClientLedger) (request : MailboxPutRequest)
    (expectedServiceStoreKey dispatchBinding replicaSetCommitmentId : Id)
    (replicaSetStoreKeys : List Id) (requiredReceipts : Nat)
    (receipts : List (Id × MailboxStoredReceipt)) (recordedAtUnixSeconds : Nat) (t : ClientTables) :
    Result (ReplicatedOutboundCommit × ClientTables) := do
  let record ← replicatedRecord P request expectedServiceStoreKey dispatchBinding
    replicaSetCommitmentId replicaSetStoreKeys requiredReceipts receipts recordedAtUnixSeconds
  match t.pendingOutbound[request.itemKey P]? with
  | some pending =>
    let pending ← pending.decode P
    ensure (pending.request = request ∧ pending.expectedStoreKey = expectedServiceStoreKey)
      "pending mailbox upload changed before exact replication commit"
    let t' ← L.complete (request.itemKey P) (.exactVolunteer record)
      "durable outbound mailbox commit capacity exceeded" t
    return (record, t')
  | none =>
    let current ← okOr t.storedOutbound[request.itemKey P]?
      (.failed "pending mailbox upload disappeared before exact replication commit")
    let current ← current.decode P
    match current with
    | .exactVolunteer current =>
      ensure (current.sameLogicalRecord record)
        "exact volunteer replication commit replay conflicts"
      return (current, t)
    | .https _ =>
      throw (.failed "mailbox item already completed by HTTPS compatibility storage")

def commitRecord (prepared : PreparedInboundItem) (applicationCommitId : Id)
    (committedAtUnixSeconds : Nat) : InboundCommitRecord :=
  ⟨recordVersion, prepared.mailboxId P, prepared.itemId, prepared.expectedStoreKey,
    prepared.storedReceipt, applicationCommitId, committedAtUnixSeconds⟩

def recordInboundCommit (L : MailboxClientLedger) (prepared : PreparedInboundItem)
    (applicationCommitId : Id) (committedAtUnixSeconds : Nat) (t : ClientTables) :
    Result (Unit × ClientTables) := do
  let record ← (commitRecord P prepared applicationCommitId committedAtUnixSeconds).decode P
  match t.deletedInbound[record.itemKey]? with
  | some deleted =>
    let deleted ← deleted.decode P
    let receiptId ← prepared.storedReceiptId P
    ensure (deleted.storedReceiptId = receiptId ∧ deleted.expectedStoreKey = prepared.expectedStoreKey)
      "already-deleted mailbox item conflicts with prepared input"
    return ((), t)
  | none =>
    match t.inboundCommits[record.itemKey]? with
    | some current =>
      let current ← current.decode P
      ensure (current.sameLogicalRecord record) "inbound mailbox commit replay conflicts"
      return ((), t)
    | none =>
      ensure (t.inboundCommits.size < L.config.maxInboundCommits)
        "inbound mailbox commit capacity exceeded"
      return ((), { t with inboundCommits := t.inboundCommits.insert record.itemKey record })

/-- The first committed item of the mailbox, in the order of the table. -/
def firstDelete (address : MailboxAddress) (readCapability : MailboxReadCapability) :
    List (ItemKey × InboundCommitRecord) → Result (Option MailboxDeleteRequest)
  | [] => return none
  | (key, record) :: rest =>
    if key.mailboxId ≠ address.mailboxId P then
      firstDelete address readCapability rest
    else do
      let record ← record.decode P
      let receiptId ← (record.storedReceipt.receiptId P).context none
      let authorization ← (readCapability.authorizeDelete P address record.itemId receiptId).context none
      let request ← (MailboxDeleteRequest.new P address authorization).context none
      return some request

def pendingDelete (address : MailboxAddress) (readCapability : MailboxReadCapability)
    (t : ClientTables) : Result (Option MailboxDeleteRequest) := do
  ensure (address.readKey = readCapability.readKey)
    "mailbox read capability does not match pending-delete address"
  firstDelete P address readCapability t.inboundCommits.toList

def deletedRecord (request : MailboxDeleteRequest) (response : MailboxDeleteResponse)
    (expectedStoreKey : Id) (recordedAtUnixSeconds : Nat) : Result DeletedInboundRecord := do
  let deleteReceipt ← okOr response.deleteReceipt (.failed "mailbox delete response has no signed deletion proof")
  (response.verify P request expectedStoreKey).context none
  let deletion ← okOr request.deletion (.failed "validated delete request")
  DeletedInboundRecord.decode P ⟨recordVersion, request.mailboxId P, deletion.1, expectedStoreKey,
    deletion.2, deleteReceipt, recordedAtUnixSeconds⟩

def markInboundDeleted (L : MailboxClientLedger) (request : MailboxDeleteRequest)
    (response : MailboxDeleteResponse) (expectedStoreKey : Id) (recordedAtUnixSeconds : Nat)
    (t : ClientTables) : Result (Unit × ClientTables) := do
  let record ← deletedRecord P request response expectedStoreKey recordedAtUnixSeconds
  match t.deletedInbound[record.itemKey]? with
  | some current =>
    let current ← current.decode P
    ensure (current.sameLogicalRecord record) "deleted mailbox receipt replay conflicts"
    return ((), t)
  | none =>
    let committed ← okOr t.inboundCommits[record.itemKey]?
      (.failed "application commit is absent before mailbox deletion")
    let committed ← committed.decode P
    let committedId ← (committed.storedReceipt.receiptId P).context none
    ensure (committedId = record.storedReceiptId ∧ committed.expectedStoreKey = expectedStoreKey)
      "mailbox delete does not match durable application commit"
    ensure (t.deletedInbound.size < L.config.maxRetainedReceipts)
      "deleted mailbox receipt capacity exceeded"
    return ((), { t with
      deletedInbound := t.deletedInbound.insert record.itemKey record
      inboundCommits := t.inboundCommits.erase record.itemKey })

structure MailboxClientCleanupReport where
  (removedPendingUploads removedStoredReceipts removedInboundCommits removedDeletedReceipts : Nat)
  deriving DecidableEq

def pendingExpired (now : Nat) (_ : ItemKey) (r : PendingOutboundRecord) : Result Bool := do
  let r ← r.decode P
  let envelope ← (MailboxEnvelope.decode P r.request.envelope).context none
  return decide (envelope.context.expiresAtUnixSeconds ≤ now)

def storedExpired (now : Nat) (_ : ItemKey) (r : DurableOutboundRecord) : Result Bool :=
  hasExpired (r.decode P) (·.expiresAtUnixSeconds) now

def commitExpired (now : Nat) (_ : ItemKey) (r : InboundCommitRecord) : Result Bool :=
  hasExpired (r.decode P) (·.storedReceipt.content.expiresAtUnixSeconds) now

def deletionExpired (now : Nat) (_ : ItemKey) (r : DeletedInboundRecord) : Result Bool :=
  hasExpired (r.decode P) (·.deleteReceipt.content.expiresAtUnixSeconds) now

def cleanup (now : Nat) (t : ClientTables) : Result (MailboxClientCleanupReport × ClientTables) := do
  let pending ← Maps.sweep (pendingExpired P now) t.pendingOutbound
  let stored ← Maps.sweep (storedExpired P now) t.storedOutbound
  let commits ← Maps.sweep (commitExpired P now) t.inboundCommits
  let deletions ← Maps.sweep (deletionExpired P now) t.deletedInbound
  return (⟨pending.length, stored.length, commits.length, deletions.length⟩,
    ⟨Maps.removeAll t.pendingOutbound pending, Maps.removeAll t.storedOutbound stored,
      Maps.removeAll t.inboundCommits commits, Maps.removeAll t.deletedInbound deletions⟩)

inductive Request where
  | enqueueOutbound (request : MailboxPutRequest) (expectedStoreKey : Id)
  | markOutboundStored (request : MailboxPutRequest) (response : MailboxPutResponse)
      (expectedStoreKey : Id)
  | markOutboundReplicated (request : MailboxPutRequest)
      (expectedServiceStoreKey dispatchBinding replicaSetCommitmentId : Id)
      (replicaSetStoreKeys : List Id) (requiredReceipts : Nat)
      (receipts : List (Id × MailboxStoredReceipt))
  | recordInboundCommit (prepared : PreparedInboundItem) (applicationCommitId : Id)
  | markInboundDeleted (request : MailboxDeleteRequest) (response : MailboxDeleteResponse)
      (expectedStoreKey : Id)
  | cleanup

inductive Answer where
  | enqueued (outcome : OutboundEnqueueOutcome)
  | stored (receipt : StoredOutboundReceipt)
  | replicated (commit : ReplicatedOutboundCommit)
  | done
  | cleanup (report : MailboxClientCleanupReport)
  deriving DecidableEq

def transaction (L : MailboxClientLedger) (now : Nat) (request : Request) (t : ClientTables) :
    Result (Answer × ClientTables) :=
  match request with
  | .enqueueOutbound request expectedStoreKey =>
    answered .enqueued (L.enqueueOutbound P request expectedStoreKey now t)
  | .markOutboundStored request response expectedStoreKey =>
    answered .stored (L.markOutboundStored P request response expectedStoreKey now t)
  | .markOutboundReplicated request serviceKey binding commitmentId storeKeys required receipts =>
    answered .replicated (L.markOutboundReplicated P request serviceKey binding commitmentId storeKeys
      required receipts now t)
  | .recordInboundCommit prepared applicationCommitId =>
    answered (fun _ => .done) (L.recordInboundCommit P prepared applicationCommitId now t)
  | .markInboundDeleted request response expectedStoreKey =>
    answered (fun _ => .done) (L.markInboundDeleted P request response expectedStoreKey now t)
  | .cleanup => answered .cleanup (cleanup P now t)

structure Timed where
  now : Nat
  request : Request

def serve (L : MailboxClientLedger) (call : Timed) (t : ClientTables) : Result Answer × ClientTables :=
  commit (L.transaction P call.now call.request) t

def service (L : MailboxClientLedger) : Service ClientTables Timed (Result Answer) := ⟨.empty, L.serve P⟩

end MailboxClientLedger
end
end Kilogram.Mailbox
