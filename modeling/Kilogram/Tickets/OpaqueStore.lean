import Kilogram.Lib.Service
import Kilogram.Mailbox.Types

/-!
# The store of opaque ticket publications

One record for each channel, and the total of the bodies in a counter of its own.
-/

namespace Kilogram.Tickets
open Std Kilogram.Mailbox

def recordVersion : UInt8 := 1
def maxAbsoluteRecordBytes : Nat := 16 * 1024 * 1024
def minRetentionSeconds : Nat := 30
def maxRetentionSeconds : Nat := 60 * 60
def maxChannelLimit : Nat := 10000000
def maxTotalBytesLimit : Nat := 1024 * 1024 * 1024 * 1024

/-- The limits of the store. -/
structure StoreConfig where
  (retentionSeconds maxRecordBytes maxChannels maxTotalBytes : Nat)

def StoreConfig.validate (c : StoreConfig) : Mailbox.Result Unit := do
  ensure (minRetentionSeconds ≤ c.retentionSeconds ∧ c.retentionSeconds ≤ maxRetentionSeconds)
    "ticket-store retention must be between 30 and 3600 seconds"
  ensure (1 ≤ c.maxRecordBytes ∧ c.maxRecordBytes ≤ maxAbsoluteRecordBytes)
    "ticket-store record size limit is outside protocol bounds"
  ensure (1 ≤ c.maxChannels ∧ c.maxChannels ≤ maxChannelLimit)
    "ticket-store channel limit is outside service bounds"
  ensure (c.maxRecordBytes ≤ c.maxTotalBytes ∧ c.maxTotalBytes ≤ maxTotalBytesLimit)
    "ticket-store total byte limit is outside service bounds"

structure StoredOpaquePublication where
  version : UInt8
  (generation storedAtUnixSeconds expiresAtUnixSeconds : Nat)
  body : Bytes

namespace StoredOpaquePublication

def new (generation : Nat) (body : Bytes) (now retentionSeconds : Nat) : Mailbox.Result StoredOpaquePublication := do
  ensure (generation ≠ 0) "publication generation must be non-zero"
  ensure (body ≠ [] ∧ body.length ≤ maxAbsoluteRecordBytes)
    "opaque publication body is outside protocol bounds"
  ensure (now + retentionSeconds < 2 ^ 64) "ticket-store retention expiry overflow"
  return ⟨recordVersion, generation, now, now + retentionSeconds, body⟩

def validate (r : StoredOpaquePublication) : Mailbox.Result Unit := do
  ensure (r.version = recordVersion) "unsupported opaque ticket-store record version"
  ensure (r.generation ≠ 0 ∧ r.storedAtUnixSeconds < r.expiresAtUnixSeconds ∧ r.body ≠ [] ∧
      r.body.length ≤ maxAbsoluteRecordBytes)
    "opaque ticket-store record is invalid"

def decode (r : StoredOpaquePublication) : Mailbox.Result StoredOpaquePublication := do
  r.validate
  return r

def expiredAt (r : StoredOpaquePublication) (now : Nat) : Prop := r.expiresAtUnixSeconds ≤ now
  deriving Decidable

end StoredOpaquePublication

inductive PutOutcome where
  | created
  | replaced
  | alreadyPresent
  | conflict
  | capacityExceeded
  deriving DecidableEq

structure StoredValue where
  (generation expiresAtUnixSeconds : Nat)
  body : Bytes
  deriving DecidableEq

structure Tables where
  records : TreeMap Id StoredOpaquePublication
  totalBodyBytes : Nat

/-- The limits of a store have been validated. -/
structure OpaqueStore where
  config : StoreConfig
  valid : config.validate = .ok ()

namespace OpaqueStore
variable (S : OpaqueStore)

def put (channel : Id) (generation : Nat) (body : Bytes) (now : Nat) (t : Tables) :
    Mailbox.Result (PutOutcome × Tables) := do
  ensure (body ≠ [] ∧ body.length ≤ S.config.maxRecordBytes)
    "opaque publication body is outside configured bounds"
  let incoming ← StoredOpaquePublication.new generation body now S.config.retentionSeconds
  incoming.validate
  match t.records[channel]? with
  | some current => do
    let current ← current.decode
    if incoming.generation < current.generation ∨
        incoming.generation = current.generation ∧ incoming.body ≠ current.body then
      return (.conflict, t)
    else if incoming.generation = current.generation then
      return (.alreadyPresent, t)
    else
      let candidateTotal := saturatingAdd 64 (t.totalBodyBytes - current.body.length) incoming.body.length
      if candidateTotal > S.config.maxTotalBytes then
        return (.capacityExceeded, t)
      else
        return (.replaced, ⟨t.records.insert channel incoming, candidateTotal⟩)
  | none =>
    if t.records.size ≥ S.config.maxChannels then
      return (.capacityExceeded, t)
    else if saturatingAdd 64 t.totalBodyBytes incoming.body.length > S.config.maxTotalBytes then
      return (.capacityExceeded, t)
    else
      return (.created, ⟨t.records.insert channel incoming, saturatingAdd 64 t.totalBodyBytes incoming.body.length⟩)

/-- A record that does not decode stays. -/
def removeIfExpired (channel : Id) (now : Nat) (t : Tables) : Tables :=
  match t.records[channel]? with
  | none => t
  | some current =>
    match current.decode with
    | .error _ => t
    | .ok current =>
      if current.expiredAt now then
        ⟨t.records.erase channel, t.totalBodyBytes - current.body.length⟩
      else t

def get (channel : Id) (now : Nat) (t : Tables) : Mailbox.Result (Option StoredValue × Tables) :=
  match t.records[channel]? with
  | none => return (none, t)
  | some current => do
    let current ← current.decode
    if current.expiredAt now then
      return (none, removeIfExpired channel now t)
    else
      return (some ⟨current.generation, current.expiresAtUnixSeconds, current.body⟩, t)

/-- The records that a cleanup keeps. -/
def live (now : Nat) (t : Tables) : TreeMap Id StoredOpaquePublication :=
  t.records.filter fun _ r => r.decode.isOk && decide (¬ r.expiredAt now)

/-- The number of records that were removed. -/
def cleanup (now : Nat) (t : Tables) : Nat × Tables := (t.records.size - (live now t).size,
    ⟨live now t, (live now t).toList.foldl (fun n e => saturatingAdd 64 n e.2.body.length) 0⟩)

inductive Call where
  | put (channel : Id) (generation : Nat) (body : Bytes) (now : Nat)
  | get (channel : Id) (now : Nat)
  | cleanup (now : Nat)
  | removeIfExpired (channel : Id) (now : Nat)

inductive Answer where
  | put (outcome : Mailbox.Result PutOutcome)
  | got (value : Mailbox.Result (Option StoredValue))
  | cleaned (removed : Nat)
  | done
  deriving DecidableEq

/-- Calls on one store after one another, each a transaction. -/
def service : Service Tables Call Answer where
  start := ⟨∅, 0⟩
  serve call t :=
    match call with
    | .put channel generation body now =>
      let (r, t') := commit (S.put channel generation body now) t
      (.put r, t')
    | .get channel now =>
      let (r, t') := commit (get channel now) t
      (.got r, t')
    | .cleanup now =>
      let (removed, t') := cleanup now t
      (.cleaned removed, t')
    | .removeIfExpired channel now => (.done, removeIfExpired channel now t)

end OpaqueStore
end Kilogram.Tickets
