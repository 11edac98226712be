import Kilogram.Lib.Sweep
import Kilogram.Mailbox.Wire

/-!
# The replication ledger

An item that is to be kept by several stores has a plan, the receipts of the stores that took it, the
set of stores that was committed to, and the time of the last attempt. Copies that were received and
committed are tracked for each store until the store has deleted them.

Records are kept decoded; every place that reads one validates it as the decoder does.
-/

namespace Kilogram.Mailbox
open Std
open Except (okOr)

def maxAbsoluteRecords : Nat := 1000000
def maxReplicationTargets : Nat := 8
def minReplicaSetLocatorStores : Nat := 2
def maxReplicaSetLocatorStores : Nat := maxReplicationTargets
def maxReplicaDeleteBatch : Nat := 8

structure MailboxReplicationLedgerConfig where
  (maxPlans maxReceipts : Nat)

def MailboxReplicationLedgerConfig.validate (c : MailboxReplicationLedgerConfig) : Result Unit :=
  ensure ((1 ≤ c.maxPlans ∧ c.maxPlans ≤ maxAbsoluteRecords) ∧
      (1 ≤ c.maxReceipts ∧ c.maxReceipts ≤ maxAbsoluteRecords))
    "mailbox replication ledger limits are invalid"

/-- An item at one store: the ninety-six bytes of the item and the key of the store. -/
structure ReceiptKey where
  item : ItemKey
  storeKey : Id
  deriving DecidableEq

namespace ReceiptKey

def code (k : ReceiptKey) : Nat := k.item.code * 2 ^ 256 + k.storeKey.toNat

theorem code_inj {j k : ReceiptKey} (h : j.code = k.code) : j = k := by
  obtain ⟨m, x⟩ := j
  obtain ⟨n, y⟩ := k
  have hx := x.isLt
  have hy := y.isLt
  simp only [code] at h
  have hmn : m.code = n.code := by omega
  have hxy : x.toNat = y.toNat := by omega
  rw [ItemKey.code_inj hmn, BitVec.eq_of_toNat_eq hxy]

instance : Ord ReceiptKey := ⟨compareOn code⟩
instance : Std.TransOrd ReceiptKey := inferInstanceAs (Std.TransCmp (compareOn code))
instance : Std.LawfulEqOrd ReceiptKey := Maps.lawfulEqCmp_compareOn fun _ _ => code_inj

end ReceiptKey

section
variable (P : Primitives)

/-- The digest of a request is kept as the request. -/
structure ReplicationPlanRecord where
  version : UInt8
  (mailboxId itemId : Id)
  (requestDigest request : MailboxPutRequest)
  (dispatchBinding selectionSalt : Id)
  (requestedReplicas requiredReceipts createdAtUnixSeconds expiresAtUnixSeconds : Nat)
  deriving DecidableEq

structure MailboxReplicationPlan where
  (mailboxId itemId : Id)
  request : MailboxPutRequest
  (dispatchBinding selectionSalt : Id)
  (requestedReplicas requiredReceipts expiresAtUnixSeconds : Nat)
  deriving DecidableEq

namespace ReplicationPlanRecord

def itemKey (r : ReplicationPlanRecord) : ItemKey := ⟨r.mailboxId, r.itemId⟩

def validate (r : ReplicationPlanRecord) : Result Unit := do
  (r.request.validate P).context none
  let envelope ← (MailboxEnvelope.decode P r.request.envelope).context none
  ensure (r.version = recordVersion ∧ r.mailboxId = r.request.mailboxId P ∧
      r.itemId = r.request.itemId ∧ r.requestDigest = r.request ∧ r.dispatchBinding ≠ 0 ∧
      r.selectionSalt ≠ 0 ∧ (1 ≤ r.requestedReplicas ∧ r.requestedReplicas ≤ maxReplicationTargets) ∧
      (1 ≤ r.requiredReceipts ∧ r.requiredReceipts ≤ r.requestedReplicas) ∧
      r.createdAtUnixSeconds < r.expiresAtUnixSeconds ∧
      r.expiresAtUnixSeconds = envelope.context.expiresAtUnixSeconds)
    "mailbox replication plan metadata is invalid"

def decode (r : ReplicationPlanRecord) : Result ReplicationPlanRecord := do
  r.validate P
  return r

def intoPublic (r : ReplicationPlanRecord) : MailboxReplicationPlan :=
  ⟨r.mailboxId, r.itemId, r.request, r.dispatchBinding, r.selectionSalt, r.requestedReplicas,
    r.requiredReceipts, r.expiresAtUnixSeconds⟩

end ReplicationPlanRecord

inductive ReplicationPlanOutcome where
  | created
  | alreadyPresent
  deriving DecidableEq

structure ReplicaReceiptRecord where
  version : UInt8
  (mailboxId itemId : Id)
  requestDigest : MailboxPutRequest
  (dispatchBinding transportIdentity storeKey : Id)
  receipt : MailboxStoredReceipt
  recordedAtUnixSeconds : Nat
  deriving DecidableEq

structure MailboxReplicaReceipt where
  (transportIdentity storeKey : Id)
  receipt : MailboxStoredReceipt
  recordedAtUnixSeconds : Nat
  deriving DecidableEq

namespace ReplicaReceiptRecord

def receiptKey (r : ReplicaReceiptRecord) : ReceiptKey := ⟨⟨r.mailboxId, r.itemId⟩, r.storeKey⟩

def validate (r : ReplicaReceiptRecord) : Result Unit := do
  (r.receipt.verifySignature P).context none
  ensure (r.version = recordVersion ∧ r.dispatchBinding ≠ 0 ∧ r.transportIdentity ≠ 0 ∧
      r.receipt.content.mailboxId = r.mailboxId ∧ r.receipt.content.itemId = r.itemId ∧
      r.receipt.content.storeKey = r.storeKey)
    "mailbox replica receipt metadata is invalid"

def decode (r : ReplicaReceiptRecord) : Result ReplicaReceiptRecord := do
  r.validate P
  return r

def intoPublic (r : ReplicaReceiptRecord) : MailboxReplicaReceipt :=
  ⟨r.transportIdentity, r.storeKey, r.receipt, r.recordedAtUnixSeconds⟩

end ReplicaReceiptRecord

structure ReplicaSetLocatorRecord where
  version : UInt8
  (mailboxId itemId dispatchBinding commitmentId : Id)
  storeKeys : List Id
  (recordedAtUnixSeconds expiresAtUnixSeconds : Nat)

structure MailboxReplicaSetLocator where
  commitmentId : Id
  storeKeys : List Id
  (recordedAtUnixSeconds expiresAtUnixSeconds : Nat)
  deriving DecidableEq

namespace ReplicaSetLocatorRecord

def itemKey (r : ReplicaSetLocatorRecord) : ItemKey := ⟨r.mailboxId, r.itemId⟩

def validate (r : ReplicaSetLocatorRecord) : Result Unit :=
  ensure (r.version = recordVersion ∧ r.dispatchBinding ≠ 0 ∧ r.commitmentId ≠ 0 ∧
      r.recordedAtUnixSeconds < r.expiresAtUnixSeconds ∧
      (minReplicaSetLocatorStores ≤ r.storeKeys.length ∧ r.storeKeys.length ≤ maxReplicaSetLocatorStores) ∧
      r.storeKeys.IsChain (· < ·))
    "mailbox replica-set locator metadata is invalid"

def decode (r : ReplicaSetLocatorRecord) : Result ReplicaSetLocatorRecord := do
  r.validate
  return r

def intoPublic (r : ReplicaSetLocatorRecord) : MailboxReplicaSetLocator :=
  ⟨r.commitmentId, r.storeKeys, r.recordedAtUnixSeconds, r.expiresAtUnixSeconds⟩

end ReplicaSetLocatorRecord

/-- An inbound item whose receipt was checked and whose envelope was opened. -/
structure PreparedInboundItem where
  address : MailboxAddress
  item : StoredMailboxItem
  expectedStoreKey : Id

namespace PreparedInboundItem

def mailboxId (p : PreparedInboundItem) : Id := p.address.mailboxId P
def itemId (p : PreparedInboundItem) : Id := p.item.itemId
def storedReceipt (p : PreparedInboundItem) : MailboxStoredReceipt := p.item.receipt

def storedReceiptId (p : PreparedInboundItem) : Result MailboxReceiptId := (p.item.receipt.receiptId P).context none

end PreparedInboundItem

structure ReplicaInboundCommitRecord where
  version : UInt8
  (mailboxId itemId transportIdentity expectedStoreKey : Id)
  storedReceipt : MailboxStoredReceipt
  applicationCommitId : Id
  committedAtUnixSeconds : Nat

namespace ReplicaInboundCommitRecord

def receiptKey (r : ReplicaInboundCommitRecord) : ReceiptKey := ⟨⟨r.mailboxId, r.itemId⟩, r.expectedStoreKey⟩

def validate (r : ReplicaInboundCommitRecord) : Result Unit := do
  (r.storedReceipt.verifySignature P).context none
  ensure (r.version = recordVersion ∧ r.transportIdentity ≠ 0 ∧
      r.storedReceipt.content.mailboxId = r.mailboxId ∧ r.storedReceipt.content.itemId = r.itemId ∧
      r.storedReceipt.content.storeKey = r.expectedStoreKey)
    "inbound replica commit metadata is invalid"

def decode (r : ReplicaInboundCommitRecord) : Result ReplicaInboundCommitRecord := do
  r.validate P
  return r

def sameLogicalRecord (r other : ReplicaInboundCommitRecord) : Prop :=
  r.version = other.version ∧ r.mailboxId = other.mailboxId ∧ r.itemId = other.itemId ∧
    r.transportIdentity = other.transportIdentity ∧ r.expectedStoreKey = other.expectedStoreKey ∧
    r.storedReceipt = other.storedReceipt ∧ r.applicationCommitId = other.applicationCommitId
  deriving Decidable

end ReplicaInboundCommitRecord

structure ReplicaInboundDeletedRecord where
  version : UInt8
  (mailboxId itemId transportIdentity expectedStoreKey : Id)
  storedReceiptId : MailboxReceiptId
  deleteReceipt : MailboxDeleteReceipt
  recordedAtUnixSeconds : Nat

namespace ReplicaInboundDeletedRecord

def receiptKey (r : ReplicaInboundDeletedRecord) : ReceiptKey := ⟨⟨r.mailboxId, r.itemId⟩, r.expectedStoreKey⟩

def validate (r : ReplicaInboundDeletedRecord) : Result Unit := do
  (r.deleteReceipt.verify P).context none
  ensure (r.version = recordVersion ∧ r.transportIdentity ≠ 0 ∧
      r.deleteReceipt.content.mailboxId = r.mailboxId ∧ r.deleteReceipt.content.itemId = r.itemId ∧
      r.deleteReceipt.content.storeKey = r.expectedStoreKey ∧
      r.deleteReceipt.content.storedReceiptId = r.storedReceiptId)
    "deleted inbound replica metadata is invalid"

def decode (r : ReplicaInboundDeletedRecord) : Result ReplicaInboundDeletedRecord := do
  r.validate P
  return r

def sameLogicalRecord (r other : ReplicaInboundDeletedRecord) : Prop :=
  r.version = other.version ∧ r.mailboxId = other.mailboxId ∧ r.itemId = other.itemId ∧
    r.transportIdentity = other.transportIdentity ∧ r.expectedStoreKey = other.expectedStoreKey ∧
    r.storedReceiptId = other.storedReceiptId ∧ r.deleteReceipt = other.deleteReceipt
  deriving Decidable

end ReplicaInboundDeletedRecord

structure PendingReplicaDelete where
  request : MailboxDeleteRequest
  (expectedStoreKey transportIdentity : Id)

structure MailboxReplicationStatus where
  plan : MailboxReplicationPlan
  receipts : List MailboxReplicaReceipt
  replicaSetLocator : Option MailboxReplicaSetLocator

namespace MailboxReplicationStatus

/-- The keys of a locator ascend, so that the binary search of the source finds the members. -/
def qualifyingReceipts (s : MailboxReplicationStatus) : List MailboxReplicaReceipt :=
  match s.replicaSetLocator with
  | some locator => s.receipts.filter fun receipt => receipt.storeKey ∈ locator.storeKeys
  | none => s.receipts

def isSatisfied (s : MailboxReplicationStatus) : Prop := s.qualifyingReceipts.length ≥ s.plan.requiredReceipts
  deriving Decidable

end MailboxReplicationStatus

structure ReplicationTables where
  plans : TreeMap ItemKey ReplicationPlanRecord
  receipts : TreeMap ReceiptKey ReplicaReceiptRecord
  locators : TreeMap ItemKey ReplicaSetLocatorRecord
  attempts : TreeMap ItemKey Nat
  inboundCommits : TreeMap ReceiptKey ReplicaInboundCommitRecord
  inboundDeleted : TreeMap ReceiptKey ReplicaInboundDeletedRecord

def ReplicationTables.empty : ReplicationTables := ⟨∅, ∅, ∅, ∅, ∅, ∅⟩

structure MailboxReplicationLedger where
  config : MailboxReplicationLedgerConfig
  valid : config.validate = .ok ()

namespace MailboxReplicationLedger

def samePlan (current record : ReplicationPlanRecord) : Prop :=
  current.mailboxId = record.mailboxId ∧ current.itemId = record.itemId ∧
    current.requestDigest = record.requestDigest ∧ current.request = record.request ∧
    current.dispatchBinding = record.dispatchBinding ∧
    current.requestedReplicas = record.requestedReplicas ∧
    current.requiredReceipts = record.requiredReceipts ∧
    current.expiresAtUnixSeconds = record.expiresAtUnixSeconds
  deriving Decidable

def planRecord (request : MailboxPutRequest) (dispatchBinding candidateSelectionSalt : Id)
    (requestedReplicas requiredReceipts createdAtUnixSeconds : Nat) : Result ReplicationPlanRecord := do
  (request.validate P).context none
  let envelope ← (MailboxEnvelope.decode P request.envelope).context none
  ReplicationPlanRecord.decode P ⟨recordVersion, request.mailboxId P, request.itemId, request, request,
    dispatchBinding, candidateSelectionSalt, requestedReplicas, requiredReceipts, createdAtUnixSeconds,
    envelope.context.expiresAtUnixSeconds⟩

def ensurePlan (L : MailboxReplicationLedger) (request : MailboxPutRequest)
    (dispatchBinding candidateSelectionSalt : Id)
    (requestedReplicas requiredReceipts createdAtUnixSeconds : Nat) (t : ReplicationTables) :
    Result ((ReplicationPlanOutcome × MailboxReplicationPlan) × ReplicationTables) := do
  let record ← planRecord P request dispatchBinding candidateSelectionSalt requestedReplicas
    requiredReceipts createdAtUnixSeconds
  match t.plans[record.itemKey]? with
  | some current =>
    let current ← current.decode P
    ensure (samePlan current record) "mailbox replication plan conflicts with durable state"
    return ((.alreadyPresent, current.intoPublic), t)
  | none =>
    ensure (t.plans.size < L.config.maxPlans) "mailbox replication plan capacity exceeded"
    return ((.created, record.intoPublic), { t with plans := t.plans.insert record.itemKey record })

/-- The receipts of an item, in the order of the table, each checked against the plan. -/
def receiptsOf (key : ItemKey) (plan : ReplicationPlanRecord) :
    List (ReceiptKey × ReplicaReceiptRecord) → Result (List ReplicaReceiptRecord)
  | [] => return []
  | (receiptKey, receipt) :: rest =>
    if receiptKey.item = key then do
      let receipt ← receipt.decode P
      ensure (receipt.requestDigest = plan.requestDigest ∧
          receipt.dispatchBinding = plan.dispatchBinding ∧ receiptKey = receipt.receiptKey)
        "mailbox replica receipt does not match its durable plan"
      return receipt :: (← receiptsOf key plan rest)
    else
      receiptsOf key plan rest

def locatorMatches (locator : ReplicaSetLocatorRecord) (plan : ReplicationPlanRecord) : Prop :=
  locator.mailboxId = plan.mailboxId ∧ locator.itemId = plan.itemId ∧ locator.dispatchBinding = plan.dispatchBinding ∧
    locator.expiresAtUnixSeconds = plan.expiresAtUnixSeconds
  deriving Decidable

def readLocator (plan : ReplicationPlanRecord) :
    Option ReplicaSetLocatorRecord → Result (Option MailboxReplicaSetLocator)
  | none => return none
  | some locator => do
    let locator ← locator.decode
    ensure (locatorMatches locator plan)
      "mailbox replica-set locator does not match its durable plan"
    return some locator.intoPublic

def status (mailboxId itemId : Id) (t : ReplicationTables) : Result (Option MailboxReplicationStatus) :=
  match t.plans[(⟨mailboxId, itemId⟩ : ItemKey)]? with
  | none => return none
  | some plan => do
    let plan ← plan.decode P
    let locator ← readLocator plan t.locators[(⟨mailboxId, itemId⟩ : ItemKey)]?
    let receipts ← receiptsOf P ⟨mailboxId, itemId⟩ plan t.receipts.toList
    return some ⟨plan.intoPublic,
      (receipts.map (·.intoPublic)).mergeSort fun a b => decide (a.storeKey ≤ b.storeKey), locator⟩

def sameLocator (current record : ReplicaSetLocatorRecord) : Prop :=
  current.version = record.version ∧ current.mailboxId = record.mailboxId ∧
    current.itemId = record.itemId ∧ current.dispatchBinding = record.dispatchBinding ∧
    current.commitmentId = record.commitmentId ∧ current.storeKeys = record.storeKeys ∧
    current.expiresAtUnixSeconds = record.expiresAtUnixSeconds
  deriving Decidable

def locatorRecord (plan : MailboxReplicationPlan) (commitmentId : Id) (storeKeys : List Id)
    (recordedAtUnixSeconds : Nat) : ReplicaSetLocatorRecord :=
  ⟨recordVersion, plan.mailboxId, plan.itemId, plan.dispatchBinding, commitmentId, storeKeys,
    recordedAtUnixSeconds, plan.expiresAtUnixSeconds⟩

def ensureReplicaSetLocator (L : MailboxReplicationLedger) (plan : MailboxReplicationPlan)
    (commitmentId : Id) (storeKeys : List Id) (recordedAtUnixSeconds : Nat) (t : ReplicationTables) :
    Result (MailboxReplicaSetLocator × ReplicationTables) := do
  let record ← (locatorRecord plan commitmentId storeKeys recordedAtUnixSeconds).decode
  let durablePlan ← okOr t.plans[record.itemKey]? (.failed "mailbox replication plan is absent before locator commit")
  let durablePlan ← durablePlan.decode P
  ensure (durablePlan.dispatchBinding = record.dispatchBinding ∧
      durablePlan.expiresAtUnixSeconds = record.expiresAtUnixSeconds ∧
      durablePlan.requiredReceipts ≤ record.storeKeys.length)
    "mailbox replica-set locator does not satisfy its durable plan"
  match t.locators[record.itemKey]? with
  | some current =>
    let current ← current.decode
    ensure (sameLocator current record) "mailbox replica-set locator replay conflicts"
    return (current.intoPublic, t)
  | none =>
    ensure (t.locators.size < L.config.maxPlans) "mailbox replica-set locator capacity exceeded"
    return (record.intoPublic, { t with locators := t.locators.insert record.itemKey record })

def receiptRecord (request : MailboxPutRequest) (dispatchBinding transportIdentity storeKey : Id)
    (response : MailboxPutResponse) (recordedAtUnixSeconds : Nat) : Result ReplicaReceiptRecord := do
  let receipt ← okOr response.storedReceipt (.failed "volunteer mailbox response does not prove durable acceptance")
  (response.verify P request storeKey).context none
  ReplicaReceiptRecord.decode P ⟨recordVersion, request.mailboxId P, request.itemId, request,
    dispatchBinding, transportIdentity, storeKey, receipt, recordedAtUnixSeconds⟩

/-- Another receipt of the item from the same transport is refused. -/
def checkTransports (key : ItemKey) (transportIdentity : Id) : List (ReceiptKey × ReplicaReceiptRecord) → Result Unit
  | [] => return
  | (receiptKey, current) :: rest => do
    if receiptKey.item = key then
      let current ← current.decode P
      ensure (current.transportIdentity ≠ transportIdentity)
        "mailbox replica receipts do not represent transport-distinct providers"
      checkTransports key transportIdentity rest
    else
      checkTransports key transportIdentity rest

def recordReceipt (L : MailboxReplicationLedger) (request : MailboxPutRequest)
    (dispatchBinding transportIdentity storeKey : Id) (response : MailboxPutResponse)
    (recordedAtUnixSeconds : Nat) (t : ReplicationTables) :
    Result (MailboxReplicaReceipt × ReplicationTables) := do
  let record ← receiptRecord P request dispatchBinding transportIdentity storeKey response
    recordedAtUnixSeconds
  let plan ← okOr t.plans[record.receiptKey.item]?
    (.failed "mailbox replication plan is absent before receipt commit")
  let plan ← plan.decode P
  ensure (plan.requestDigest = record.requestDigest ∧ plan.dispatchBinding = record.dispatchBinding)
    "mailbox replica receipt does not match its durable plan"
  match t.receipts[record.receiptKey]? with
  | some current =>
    let current ← current.decode P
    ensure (current = record) "mailbox replica receipt replay conflicts"
    return (current.intoPublic, t)
  | none =>
    checkTransports P record.receiptKey.item transportIdentity t.receipts.toList
    ensure (t.receipts.size < L.config.maxReceipts) "mailbox replica receipt capacity exceeded"
    return (record.intoPublic, { t with receipts := t.receipts.insert record.receiptKey record })

def markAttempt (plan : MailboxReplicationPlan) (attemptedAtUnixSeconds retrySeconds : Nat)
    (t : ReplicationTables) : Result (Bool × ReplicationTables) := do
  ensure (retrySeconds ≠ 0 ∧ attemptedAtUnixSeconds < plan.expiresAtUnixSeconds)
    "mailbox replication attempt is outside the plan lifetime"
  let key : ItemKey := ⟨plan.mailboxId, plan.itemId⟩
  let record ← okOr t.plans[key]? (.failed "mailbox replication plan is absent before attempt")
  let record ← record.decode P
  ensure (record.dispatchBinding = plan.dispatchBinding ∧ record.request = plan.request)
    "mailbox replication attempt does not match its durable plan"
  match t.attempts[key]? with
  | some current =>
    ensure (attemptedAtUnixSeconds ≥ current) "mailbox replication attempt time moved backwards"
    if attemptedAtUnixSeconds - current < retrySeconds then
      return (false, t)
    else
      return (true, { t with attempts := t.attempts.insert key attemptedAtUnixSeconds })
  | none => return (true, { t with attempts := t.attempts.insert key attemptedAtUnixSeconds })

/-- The receipts of an item are counted, each from a transport of its own. -/
def countReceipts (key : ItemKey) (plan : ReplicationPlanRecord) :
    List (ReceiptKey × ReplicaReceiptRecord) → (transports : List Id) → Result Nat
  | [], _ => return 0
  | (receiptKey, receipt) :: rest, transports =>
    if receiptKey.item = key then do
      let receipt ← receipt.decode P
      ensure (receipt.requestDigest = plan.requestDigest ∧
          receipt.dispatchBinding = plan.dispatchBinding ∧ receiptKey = receipt.receiptKey ∧
          receipt.transportIdentity ∉ transports)
        "mailbox replica receipt does not match its durable plan"
      return (← countReceipts key plan rest (receipt.transportIdentity :: transports)) + 1
    else
      countReceipts key plan rest transports

def duePlans (t : ReplicationTables) (now retrySeconds : Nat) :
    List (ItemKey × ReplicationPlanRecord) → Result (List ReplicationPlanRecord)
  | [] => return []
  | (key, plan) :: rest => do
    let plan ← plan.decode P
    if plan.expiresAtUnixSeconds ≤ now then
      duePlans t now retrySeconds rest
    else
      let receiptCount ← countReceipts P key plan t.receipts.toList []
      if receiptCount ≥ plan.requiredReceipts then
        duePlans t now retrySeconds rest
      else if (t.attempts[key]?).all (fun last => now - last ≥ retrySeconds) then
        return plan :: (← duePlans t now retrySeconds rest)
      else
        duePlans t now retrySeconds rest

/-- The order in which plans fall due: by creation, then by item. -/
def dueBefore (a b : ReplicationPlanRecord) : Bool := a.createdAtUnixSeconds < b.createdAtUnixSeconds ∨
    (a.createdAtUnixSeconds = b.createdAtUnixSeconds ∧ a.itemId ≤ b.itemId)

def nextDue (now retrySeconds : Nat) (t : ReplicationTables) : Result (Option MailboxReplicationPlan) := do
  ensure (retrySeconds ≠ 0) "mailbox replication retry interval is zero"
  let due ← duePlans P t now retrySeconds t.plans.toList
  return (due.mergeSort dueBefore).head?.map (·.intoPublic)

def inboundCommitRecord (prepared : PreparedInboundItem) (transportIdentity applicationCommitId : Id)
    (committedAtUnixSeconds : Nat) : ReplicaInboundCommitRecord :=
  ⟨recordVersion, prepared.mailboxId P, prepared.itemId, transportIdentity, prepared.expectedStoreKey,
    prepared.storedReceipt, applicationCommitId, committedAtUnixSeconds⟩

def recordInboundCommit (L : MailboxReplicationLedger) (prepared : PreparedInboundItem)
    (transportIdentity applicationCommitId : Id) (committedAtUnixSeconds : Nat)
    (t : ReplicationTables) : Result (Unit × ReplicationTables) := do
  let record ← (inboundCommitRecord P prepared transportIdentity applicationCommitId
    committedAtUnixSeconds).decode P
  match t.inboundDeleted[record.receiptKey]? with
  | some deleted =>
    let deleted ← deleted.decode P
    let receiptId ← prepared.storedReceiptId P
    ensure (deleted.transportIdentity = transportIdentity ∧
        deleted.expectedStoreKey = prepared.expectedStoreKey ∧ deleted.storedReceiptId = receiptId)
      "already-deleted inbound replica conflicts with prepared input"
    return ((), t)
  | none =>
    match t.inboundCommits[record.receiptKey]? with
    | some current =>
      let current ← current.decode P
      ensure (current.sameLogicalRecord record) "inbound replica commit replay conflicts"
      return ((), t)
    | none =>
      ensure (t.inboundCommits.size < L.config.maxReceipts)
        "inbound replica commit capacity exceeded"
      return ((), { t with inboundCommits := t.inboundCommits.insert record.receiptKey record })

def pendingDelete (address : MailboxAddress) (readCapability : MailboxReadCapability)
    (record : ReplicaInboundCommitRecord) : Result PendingReplicaDelete := do
  let receiptId ← (record.storedReceipt.receiptId P).context none
  let authorization ← (readCapability.authorizeDelete P address record.itemId receiptId).context none
  let request ← (MailboxDeleteRequest.new P address authorization).context none
  return ⟨request, record.expectedStoreKey, record.transportIdentity⟩

def pendingInboundDeleteFor (address : MailboxAddress) (readCapability : MailboxReadCapability)
    (itemId expectedStoreKey : Id) (t : ReplicationTables) : Result (Option PendingReplicaDelete) := do
  ensure (address.readKey = readCapability.readKey)
    "mailbox read capability does not match replica delete address"
  match t.inboundCommits[(⟨⟨address.mailboxId P, itemId⟩, expectedStoreKey⟩ : ReceiptKey)]? with
  | none => return none
  | some record =>
    let record ← record.decode P
    ensure (record.mailboxId = address.mailboxId P ∧ record.itemId = itemId ∧
        record.expectedStoreKey = expectedStoreKey)
      "inbound replica commit key does not match its record"
    return some (← pendingDelete P address readCapability record)

/-- The pass over the committed copies, which stops when `limit` deletions were collected. -/
def collectDeletes (address : MailboxAddress) (readCapability : MailboxReadCapability) (limit : Nat) :
    List (ReceiptKey × ReplicaInboundCommitRecord) → List PendingReplicaDelete → Result (List PendingReplicaDelete)
  | [], pending => return pending
  | (key, record) :: rest, pending => do
    let record ← record.decode P
    ensure (key = record.receiptKey) "inbound replica commit key does not match its record"
    if record.mailboxId ≠ address.mailboxId P then
      collectDeletes address readCapability limit rest pending
    else
      let pending := pending ++ [← pendingDelete P address readCapability record]
      if pending.length = limit then
        return pending
      else
        collectDeletes address readCapability limit rest pending

def pendingInboundDeletes (address : MailboxAddress) (readCapability : MailboxReadCapability)
    (limit : Nat) (t : ReplicationTables) : Result (List PendingReplicaDelete) := do
  ensure (address.readKey = readCapability.readKey)
    "mailbox read capability does not match replica delete address"
  ensure (1 ≤ limit ∧ limit ≤ maxReplicaDeleteBatch) "mailbox replica delete batch size is invalid"
  collectDeletes P address readCapability limit t.inboundCommits.toList []

def pendingInboundDelete (address : MailboxAddress) (readCapability : MailboxReadCapability)
    (t : ReplicationTables) : Result (Option PendingReplicaDelete) := do
  return (← pendingInboundDeletes P address readCapability 1 t).head?

def deletedRecord (pending : PendingReplicaDelete) (response : MailboxDeleteResponse)
    (recordedAtUnixSeconds : Nat) : Result ReplicaInboundDeletedRecord := do
  let deleteReceipt ← okOr response.deleteReceipt
    (.failed "volunteer mailbox delete response has no signed deletion proof")
  (response.verify P pending.request pending.expectedStoreKey).context none
  let deletion ← okOr pending.request.deletion (.failed "validated delete request")
  ReplicaInboundDeletedRecord.decode P ⟨recordVersion, pending.request.mailboxId P, deletion.1,
    pending.transportIdentity, pending.expectedStoreKey, deletion.2, deleteReceipt,
    recordedAtUnixSeconds⟩

def markInboundDeleted (L : MailboxReplicationLedger) (pending : PendingReplicaDelete)
    (response : MailboxDeleteResponse) (recordedAtUnixSeconds : Nat) (t : ReplicationTables) :
    Result (Unit × ReplicationTables) := do
  let record ← deletedRecord P pending response recordedAtUnixSeconds
  match t.inboundDeleted[record.receiptKey]? with
  | some current =>
    let current ← current.decode P
    ensure (current.sameLogicalRecord record) "deleted inbound replica replay conflicts"
    return ((), t)
  | none =>
    let committed ← okOr t.inboundCommits[record.receiptKey]?
      (.failed "application commit is absent before replica deletion")
    let committed ← committed.decode P
    let committedId ← (committed.storedReceipt.receiptId P).context none
    ensure (committed.transportIdentity = record.transportIdentity ∧ committedId = record.storedReceiptId)
      "replica deletion does not match its durable application commit"
    ensure (t.inboundDeleted.size < L.config.maxReceipts)
      "deleted inbound replica capacity exceeded"
    return ((), { t with
      inboundDeleted := t.inboundDeleted.insert record.receiptKey record
      inboundCommits := t.inboundCommits.erase record.receiptKey })

structure MailboxReplicationCleanupReport where
  (removedPlans removedReceipts removedReplicaSetLocators removedAttempts removedInboundCommits : Nat)
  removedInboundDeletions : Nat
  deriving DecidableEq

def planExpired (now : Nat) (_ : ItemKey) (r : ReplicationPlanRecord) : Result Bool :=
  hasExpired (r.decode P) (·.expiresAtUnixSeconds) now

/-- A receipt goes with its plan, or when it has expired itself. -/
def receiptExpired (now : Nat) (expiredItems : List ItemKey) (key : ReceiptKey)
    (r : ReplicaReceiptRecord) : Result Bool :=
  if key.item ∈ expiredItems then
    return true
  else
    hasExpired (r.decode P) (·.receipt.content.expiresAtUnixSeconds) now

def inboundCommitExpired (now : Nat) (_ : ReceiptKey) (r : ReplicaInboundCommitRecord) : Result Bool :=
  hasExpired (r.decode P) (·.storedReceipt.content.expiresAtUnixSeconds) now

def inboundDeletionExpired (now : Nat) (_ : ReceiptKey) (r : ReplicaInboundDeletedRecord) : Result Bool :=
  hasExpired (r.decode P) (·.deleteReceipt.content.expiresAtUnixSeconds) now

def cleanup (now : Nat) (t : ReplicationTables) : Result (MailboxReplicationCleanupReport × ReplicationTables) := do
  let expiredItems ← Maps.sweep (planExpired P now) t.plans
  let expiredReceipts ← Maps.sweep (receiptExpired P now expiredItems) t.receipts
  let expiredInboundCommits ← Maps.sweep (inboundCommitExpired P now) t.inboundCommits
  let expiredInboundDeletions ← Maps.sweep (inboundDeletionExpired P now) t.inboundDeleted
  return (⟨expiredItems.length, expiredReceipts.length, (expiredItems.filter (t.locators.contains ·)).length,
    (expiredItems.filter (t.attempts.contains ·)).length,
    expiredInboundCommits.length, expiredInboundDeletions.length⟩,
    ⟨Maps.removeAll t.plans expiredItems, Maps.removeAll t.receipts expiredReceipts,
      Maps.removeAll t.locators expiredItems, Maps.removeAll t.attempts expiredItems,
      Maps.removeAll t.inboundCommits expiredInboundCommits,
      Maps.removeAll t.inboundDeleted expiredInboundDeletions⟩)

structure MailboxReplicationReadOnlyInspection where
  nextDue : Option MailboxReplicationPlan
  cleanupRequired : Bool

def replicationCleanupRequired (now : Nat) (t : ReplicationTables) : Result Bool := do
  let expiredItems ← Maps.sweep (planExpired P now) t.plans
  if expiredItems ≠ [] then
    return true
  else if ← Maps.anyExpired (receiptExpired P now []) t.receipts.toList then
    return true
  else if ← Maps.anyExpired (inboundCommitExpired P now) t.inboundCommits.toList then
    return true
  else
    Maps.anyExpired (inboundDeletionExpired P now) t.inboundDeleted.toList

def inspectReadOnly (now retrySeconds : Nat) (t : ReplicationTables) :
    Result MailboxReplicationReadOnlyInspection := do
  ensure (retrySeconds ≠ 0) "mailbox replication retry interval is zero"
  let nextDue ← nextDue P now retrySeconds t
  let cleanupRequired ← replicationCleanupRequired P now t
  return ⟨nextDue, cleanupRequired⟩

inductive Request where
  | ensurePlan (request : MailboxPutRequest) (dispatchBinding candidateSelectionSalt : Id)
      (requestedReplicas requiredReceipts : Nat)
  | ensureReplicaSetLocator (plan : MailboxReplicationPlan) (commitmentId : Id) (storeKeys : List Id)
  | recordReceipt (request : MailboxPutRequest) (dispatchBinding transportIdentity storeKey : Id)
      (response : MailboxPutResponse)
  | markAttempt (plan : MailboxReplicationPlan) (retrySeconds : Nat)
  | recordInboundCommit (prepared : PreparedInboundItem) (transportIdentity applicationCommitId : Id)
  | markInboundDeleted (pending : PendingReplicaDelete) (response : MailboxDeleteResponse)
  | cleanup

inductive Answer where
  | plan (outcome : ReplicationPlanOutcome) (plan : MailboxReplicationPlan)
  | locator (locator : MailboxReplicaSetLocator)
  | receipt (receipt : MailboxReplicaReceipt)
  | attempt (due : Bool)
  | done
  | cleanup (report : MailboxReplicationCleanupReport)
  deriving DecidableEq

def transaction (L : MailboxReplicationLedger) (now : Nat) (request : Request)
    (t : ReplicationTables) : Result (Answer × ReplicationTables) :=
  match request with
  | .ensurePlan request dispatchBinding salt requestedReplicas requiredReceipts =>
    answered (fun r => .plan r.1 r.2)
      (L.ensurePlan P request dispatchBinding salt requestedReplicas requiredReceipts now t)
  | .ensureReplicaSetLocator plan commitmentId storeKeys =>
    answered .locator (L.ensureReplicaSetLocator P plan commitmentId storeKeys now t)
  | .recordReceipt request dispatchBinding transportIdentity storeKey response =>
    answered .receipt
      (L.recordReceipt P request dispatchBinding transportIdentity storeKey response now t)
  | .markAttempt plan retrySeconds => answered .attempt (markAttempt P plan now retrySeconds t)
  | .recordInboundCommit prepared transportIdentity applicationCommitId =>
    answered (fun _ => .done)
      (L.recordInboundCommit P prepared transportIdentity applicationCommitId now t)
  | .markInboundDeleted pending response =>
    answered (fun _ => .done) (L.markInboundDeleted P pending response now t)
  | .cleanup => answered .cleanup (cleanup P now t)

structure Timed where
  now : Nat
  request : Request

def serve (L : MailboxReplicationLedger) (call : Timed) (t : ReplicationTables) : Result Answer × ReplicationTables :=
  commit (L.transaction P call.now call.request) t

def service (L : MailboxReplicationLedger) : Service ReplicationTables Timed (Result Answer) := ⟨.empty, L.serve P⟩

end MailboxReplicationLedger
end
end Kilogram.Mailbox
