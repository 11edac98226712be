import Kilogram.Lib.Service
import Kilogram.Mailbox.Types

/-!
# The blind mailbox store

Four tables: the items, the tombstones of deleted items, a count for each mailbox, and two totals.
Records are kept decoded, and every place that reads one validates it as the decoder does.
-/

namespace Kilogram.Mailbox
open Std

def recordVersion : UInt8 := 1

def maxAbsoluteItems : Nat := 10000000
def maxAbsoluteTotalBytes : Nat := 1024 * 1024 * 1024 * 1024
def maxAbsoluteItemsPerMailbox : Nat := 4096

structure MailboxStoreConfig where
  (maxEnvelopeBytes maxItemsPerMailbox maxTotalItems maxTotalBytes : Nat)

def MailboxStoreConfig.validate (c : MailboxStoreConfig) : Result Unit := do
  ensure (1 ≤ c.maxEnvelopeBytes ∧ c.maxEnvelopeBytes ≤ maxMailboxEnvelopeBytes)
    "mailbox envelope limit is outside protocol bounds"
  ensure (1 ≤ c.maxItemsPerMailbox ∧ c.maxItemsPerMailbox ≤ maxAbsoluteItemsPerMailbox)
    "mailbox per-address item limit is invalid"
  ensure (c.maxItemsPerMailbox ≤ c.maxTotalItems ∧ c.maxTotalItems ≤ maxAbsoluteItems)
    "mailbox total item limit is invalid"
  ensure (c.maxEnvelopeBytes ≤ c.maxTotalBytes ∧ c.maxTotalBytes ≤ maxAbsoluteTotalBytes)
    "mailbox total byte limit is invalid"

structure StoredRecord where
  version : UInt8
  requestedTtlSeconds : Nat
  envelope : Bytes
  receipt : MailboxStoredReceipt

namespace StoredRecord
variable (P : Primitives)

def validate (r : StoredRecord) : Result Unit := do
  ensure (r.version = recordVersion) "unsupported mailbox record version"
  ensure (minMailboxTtlSeconds ≤ r.requestedTtlSeconds ∧ r.requestedTtlSeconds ≤ maxMailboxTtlSeconds)
    "stored mailbox TTL is invalid"
  ensure (r.envelope ≠ [] ∧ r.envelope.length ≤ maxMailboxEnvelopeBytes)
    "stored mailbox envelope is invalid"
  (r.receipt.verify P r.envelope).context (some "verify stored mailbox receipt")
  ensure (r.receipt.content.expiresAtUnixSeconds - r.receipt.content.storedAtUnixSeconds = r.requestedTtlSeconds)
    "stored mailbox receipt TTL mismatch"

def decode (r : StoredRecord) : Result StoredRecord := do
  r.validate P
  return r

def new (requestedTtlSeconds : Nat) (envelope : Bytes) (receipt : MailboxStoredReceipt) : Result StoredRecord :=
  decode P ⟨recordVersion, requestedTtlSeconds, envelope, receipt⟩

def expiredAt (r : StoredRecord) (now : Nat) : Prop := r.receipt.content.expiresAtUnixSeconds ≤ now
  deriving Decidable

end StoredRecord

structure StoredTombstone where
  version : UInt8
  storedReceiptId : MailboxReceiptId
  deleteReceipt : MailboxDeleteReceipt

namespace StoredTombstone
variable (P : Primitives)

def validate (r : StoredTombstone) : Result Unit := do
  ensure (r.version = recordVersion) "unsupported mailbox tombstone version"
  (r.deleteReceipt.verify P).context (some "verify mailbox delete receipt")
  ensure (r.deleteReceipt.content.storedReceiptId = r.storedReceiptId)
    "mailbox tombstone receipt mismatch"

def decode (r : StoredTombstone) : Result StoredTombstone := do
  r.validate P
  return r

def expiredAt (r : StoredTombstone) (now : Nat) : Prop := r.deleteReceipt.content.expiresAtUnixSeconds ≤ now
  deriving Decidable

end StoredTombstone

structure Tables where
  items : TreeMap ItemKey StoredRecord
  tombstones : TreeMap ItemKey StoredTombstone
  mailboxCounts : TreeMap Id Nat
  (totalItems totalBytes : Nat)

namespace Tables

def empty : Tables := ⟨∅, ∅, ∅, 0, 0⟩
def readMailboxCount (t : Tables) (mailboxId : Id) : Nat := (t.mailboxCounts[mailboxId]?).getD 0

def writeMailboxCount (t : Tables) (mailboxId : Id) (count : Nat) : Tables :=
  { t with mailboxCounts :=
      if count = 0 then t.mailboxCounts.erase mailboxId else t.mailboxCounts.insert mailboxId count }

def writeMeta (t : Tables) (items bytes : Nat) : Tables :=
  { t with totalItems := items, totalBytes := bytes }

end Tables

inductive MailboxPutOutcome where
  | created (receipt : MailboxStoredReceipt)
  | alreadyPresent (receipt : MailboxStoredReceipt)
  | conflict
  | tombstoned
  | capacityExceeded
  deriving DecidableEq

structure StoredMailboxItem where
  itemId : Id
  expiresAtUnixSeconds : Nat
  envelope : Bytes
  receipt : MailboxStoredReceipt
  deriving DecidableEq

structure StoredMailboxPage where
  items : List StoredMailboxItem
  nextAfterItemId : Option Id
  moreAvailable : Bool
  deriving DecidableEq

inductive DeleteOutcome where
  | deleted (receipt : MailboxDeleteReceipt)
  | alreadyDeleted (receipt : MailboxDeleteReceipt)
  | absent
  | receiptMismatch
  | tombstoneCapacityExceeded
  deriving DecidableEq

structure CleanupReport where
  (removedItems removedTombstones liveItems liveEnvelopeBytes : Nat)
  deriving DecidableEq

/-- A store is opened with a configuration that was validated. -/
structure BlindMailboxStore (P : Primitives) where
  identity : MailboxStoreIdentity P
  config : MailboxStoreConfig
  valid : config.validate = .ok ()

namespace BlindMailboxStore
variable {P : Primitives}

/-- The end of a put: the candidate takes a place if there is one. `items` and the three counts are
those without an expired item at the key; the counts are written with the candidate only. -/
def placeCandidate (S : BlindMailboxStore P) (key : ItemKey) (candidate : StoredRecord)
    (items : TreeMap ItemKey StoredRecord) (totalItems totalBytes mailboxCount : Nat) (t : Tables) :
    MailboxPutOutcome × Tables :=
  if totalItems ≥ S.config.maxTotalItems ∨ mailboxCount ≥ S.config.maxItemsPerMailbox ∨
      saturatingAdd 64 totalBytes candidate.envelope.length > S.config.maxTotalBytes then
    (.capacityExceeded, { t with items := items })
  else
    let t' : Tables := { t with items := items.insert key candidate }
    (.created candidate.receipt, (t'.writeMailboxCount key.mailboxId (mailboxCount + 1)).writeMeta
      (totalItems + 1) (saturatingAdd 64 totalBytes candidate.envelope.length))

def insertCandidate (S : BlindMailboxStore P) (key : ItemKey) (candidate : StoredRecord)
    (current : Option StoredRecord) (t : Tables) : MailboxPutOutcome × Tables :=
  match current with
  | none => S.placeCandidate key candidate t.items t.totalItems t.totalBytes
      (t.readMailboxCount key.mailboxId) t
  | some current => S.placeCandidate key candidate (t.items.erase key) (t.totalItems - 1)
      (t.totalBytes - current.envelope.length) (t.readMailboxCount key.mailboxId - 1) t

def putWithoutLiveItem (S : BlindMailboxStore P) (key : ItemKey) (candidate : StoredRecord)
    (now : Nat) (current : Option StoredRecord) (t : Tables) : Result (MailboxPutOutcome × Tables) :=
  match t.tombstones[key]? with
  | none => return S.insertCandidate key candidate current t
  | some tombstone => do
    let tombstone ← tombstone.decode P
    if ¬ tombstone.expiredAt now then
      return (.tombstoned, t)
    else
      return S.insertCandidate key candidate current
        { t with tombstones := t.tombstones.erase key }

def putCandidate (S : BlindMailboxStore P) (key : ItemKey) (candidate : StoredRecord) (now : Nat)
    (t : Tables) : Result (MailboxPutOutcome × Tables) :=
  match t.items[key]? with
  | none => S.putWithoutLiveItem key candidate now none t
  | some current => do
    let current ← current.decode P
    if ¬ current.expiredAt now then
      if current.requestedTtlSeconds = candidate.requestedTtlSeconds ∧ current.envelope = candidate.envelope then
        return (.alreadyPresent current.receipt, t)
      else
        return (.conflict, t)
    else
      S.putWithoutLiveItem key candidate now (some current) t

def candidate (S : BlindMailboxStore P) (address : MailboxAddress)
    (authorization : MailboxWriteAuthorization) (envelope : Bytes) (now : Nat) : Result StoredRecord := do
  (authorization.verify P address envelope).context (some "verify mailbox write authorization")
  ensure (envelope.length ≤ S.config.maxEnvelopeBytes) "mailbox envelope exceeds configured limit"
  let expires ← Except.okOr (checkedAdd now authorization.content.requestedTtlSeconds)
    (.failed "mailbox expiry overflow")
  let receipt := S.identity.storedReceipt (address.mailboxId P) authorization.content.itemId envelope
    now expires
  StoredRecord.new P authorization.content.requestedTtlSeconds envelope receipt

def putKey (address : MailboxAddress) (authorization : MailboxWriteAuthorization) : ItemKey :=
  ⟨address.mailboxId P, authorization.content.itemId⟩

def put (S : BlindMailboxStore P) (address : MailboxAddress)
    (authorization : MailboxWriteAuthorization) (envelope : Bytes) (now : Nat) :
    Tables → Result MailboxPutOutcome × Tables :=
  commit fun t => do
    let candidate ← S.candidate address authorization envelope now
    S.putCandidate (putKey (P := P) address authorization) candidate now t

structure Tally where
  (liveItems liveBytes : Nat)
  mailboxCounts : TreeMap Id Nat

def Tally.add (y : Tally) (entry : ItemKey × StoredRecord) : Tally where
  liveItems := saturatingAdd 64 y.liveItems 1
  liveBytes := saturatingAdd 64 y.liveBytes entry.2.envelope.length
  mailboxCounts := y.mailboxCounts.insert entry.1.mailboxId
    (saturatingAdd 64 ((y.mailboxCounts[entry.1.mailboxId]?).getD 0) 1)

variable (P) in
def retainItem (now : Nat) (_key : ItemKey) (r : StoredRecord) : Bool :=
  (r.decode P).isOk && !decide (r.expiredAt now)

variable (P) in
def retainTombstone (now : Nat) (_key : ItemKey) (r : StoredTombstone) : Bool :=
  (r.decode P).isOk && !decide (r.expiredAt now)

variable (P) in
def cleanup (now : Nat) (t : Tables) : CleanupReport × Tables :=
  let items := t.items.filter (retainItem P now)
  let tally := items.toList.foldl Tally.add ⟨0, 0, ∅⟩
  let tombstones := t.tombstones.filter (retainTombstone P now)
  (⟨t.items.size - items.size, t.tombstones.size - tombstones.size, tally.liveItems, tally.liveBytes⟩,
    ⟨items, tombstones, tally.mailboxCounts, tally.liveItems, tally.liveBytes⟩)

/-- The pass over the item table, in key order, that stops one item past the limit. -/
def collectItems (P : Primitives) (mailboxId : Id) (afterItemId : Option Id) (limit : Nat) :
    List (ItemKey × StoredRecord) → List StoredMailboxItem → Result (List StoredMailboxItem)
  | [], items => return items
  | (key, record) :: rest, items =>
    if key.mailboxId ≠ mailboxId then
      collectItems P mailboxId afterItemId limit rest items
    else if (afterItemId.any fun after => key.itemId ≤ after) = true then
      collectItems P mailboxId afterItemId limit rest items
    else do
      let record ← record.decode P
      ensure (record.receipt.content.mailboxId = mailboxId ∧ record.receipt.content.itemId = key.itemId)
        "mailbox record key does not match signed receipt"
      let items := items ++ [⟨key.itemId, record.receipt.content.expiresAtUnixSeconds,
        record.envelope, record.receipt⟩]
      if items.length > limit then
        return items
      else
        collectItems P mailboxId afterItemId limit rest items

def pageOf (items : List StoredMailboxItem) (limit : Nat) : StoredMailboxPage :=
  if items.length > limit then
    ⟨items.take limit, (items.take limit).getLast?.map (·.itemId), true⟩
  else
    ⟨items, none, false⟩

variable (P) in
def listPage (address : MailboxAddress) (authorization : MailboxReadAuthorization) (now : Nat)
    (t : Tables) : Result StoredMailboxPage × Tables :=
  match (authorization.verify P address).context (some "verify mailbox list authorization") with
  | .error e => (.error e, t)
  | .ok () =>
    match authorization.content.operation with
    | .delete .. => (.error (.failed "mailbox read authorization is not a list operation"), t)
    | .list _ afterItemId limit =>
      let t := (cleanup P now t).2
      ((collectItems P (address.mailboxId P) afterItemId limit.toNat t.items.toList []).map
        (pageOf · limit.toNat), t)

def deleteItem (S : BlindMailboxStore P) (key : ItemKey) (receiptId : MailboxReceiptId) (now : Nat)
    (t : Tables) : Result (DeleteOutcome × Tables) :=
  match t.items[key]? with
  | some current => do
    let current ← current.decode P
    let currentId ← (current.receipt.receiptId P).context none
    if currentId ≠ receiptId then
      return (.receiptMismatch, t)
    else if t.tombstones.size ≥ S.config.maxTotalItems then
      return (.tombstoneCapacityExceeded, t)
    else
      let deleteReceipt := S.identity.deleteReceipt key.mailboxId key.itemId receiptId now
        current.receipt.content.expiresAtUnixSeconds
      let tombstone ← StoredTombstone.decode P ⟨recordVersion, receiptId, deleteReceipt⟩
      let t' : Tables := { t with
        items := t.items.erase key
        tombstones := t.tombstones.insert key tombstone }
      return (.deleted deleteReceipt,
        (t'.writeMeta (t.totalItems - 1) (t.totalBytes - current.envelope.length)).writeMailboxCount
          key.mailboxId (t.readMailboxCount key.mailboxId - 1))
  | none =>
    match t.tombstones[key]? with
    | none => return (.absent, t)
    | some tombstone => do
      let tombstone ← tombstone.decode P
      if tombstone.storedReceiptId = receiptId then
        return (.alreadyDeleted tombstone.deleteReceipt, t)
      else
        return (.receiptMismatch, t)

def delete (S : BlindMailboxStore P) (address : MailboxAddress)
    (authorization : MailboxReadAuthorization) (now : Nat) (t : Tables) :
    Result DeleteOutcome × Tables :=
  match (authorization.verify P address).context (some "verify mailbox delete authorization") with
  | .error e => (.error e, t)
  | .ok () =>
    match authorization.content.operation with
    | .list .. => (.error (.failed "mailbox read authorization is not a delete operation"), t)
    | .delete itemId receiptId =>
      commit (S.deleteItem ⟨address.mailboxId P, itemId⟩ receiptId now) (cleanup P now t).2

inductive Request where
  | put (address : MailboxAddress) (authorization : MailboxWriteAuthorization) (envelope : Bytes)
  | listPage (address : MailboxAddress) (authorization : MailboxReadAuthorization)
  | delete (address : MailboxAddress) (authorization : MailboxReadAuthorization)
  | cleanup

inductive Answer where
  | put (outcome : Result MailboxPutOutcome)
  | listPage (page : Result StoredMailboxPage)
  | delete (outcome : Result DeleteOutcome)
  | cleanup (report : CleanupReport)
  deriving DecidableEq

structure Timed where
  now : Nat
  request : Request

def serve (S : BlindMailboxStore P) (call : Timed) (t : Tables) : Answer × Tables :=
  match call.request with
  | .put address authorization envelope =>
    (S.put address authorization envelope call.now t).map .put id
  | .listPage address authorization => (listPage P address authorization call.now t).map .listPage id
  | .delete address authorization => (S.delete address authorization call.now t).map .delete id
  | .cleanup => (cleanup P call.now t).map .cleanup id

def service (S : BlindMailboxStore P) : Service Tables Timed Answer := ⟨.empty, S.serve⟩

end BlindMailboxStore
end Kilogram.Mailbox
