import Kilogram.Store.Files
import Std.Data.TreeSet

/-!
# Rounds of the anti-entropy sync

A client sends the ids it holds. The server answers with events the client lacks and the ids it lacks
itself, at most sixty-four each way; the client stores the events and sends the requested ones, and the
server stores those.
-/

namespace Kilogram.Sync
open Kilogram Store Std
open Except (failIf)

def syncVersion : UInt8 := 6
def maxInventoryEventIds : Nat := 4096
def maxSyncEventsPerBatch : Nat := 64
def maxSyncRounds : Nat := 64
def maxWireMessageBytes : Nat := 8 * 1024 * 1024

inductive SessionError where
  | protocol (source : ProtocolError)
  | authorization (source : ProtocolError)
  | store (source : StoreError)
  | rejected
  | conversationMismatch
  | unadvertisedEventRequested (id : Id)
  | batchEventIdsMismatch
  | completionEventIdsMismatch
  | continuationMismatch
  | tooManyRounds

abbrev Outcome (α : Type) := Except SessionError α
def protocol {α : Type} (x : Checked α) : Outcome α := x.mapError .protocol
def authorization {α : Type} (x : Checked α) : Outcome α := x.mapError .authorization
def store {α : Type} (x : Store.Result α) : Outcome α := x.mapError .store

variable [Authority]

structure SyncInventoryContent where
  (conversationId requesterDeviceId sessionBinding : Id)
  eventIds : List Id

structure SignedSyncInventory where
  content : SyncInventoryContent
  signature : Bytes

structure SyncDiffContent where
  (conversationId responderDeviceId sessionBinding : Id)
  requestedEventIds : List Id
  events : List AuthorizedEvent
  moreAvailable : Bool

structure SyncDiff where
  content : SyncDiffContent
  signature : Bytes

structure SyncEventBatch where
  conversationId : Id
  events : List AuthorizedEvent

structure SyncComplete where
  conversationId : Id
  storedEventIds : List Id
  moreAvailable : Bool

def inventorySignatureDomain : Bytes := ("kilogram:sync-inventory-signature:v6\x00".toUTF8).toList
def diffSignatureDomain : Bytes := ("kilogram:sync-diff-signature:v6\x00".toUTF8).toList

def SyncInventoryContent.encode (c : SyncInventoryContent) : Bytes :=
  [syncVersion] ++ c.conversationId.bytes ++ c.requesterDeviceId.bytes ++ c.sessionBinding.bytes ++
    Postcard.list Id.bytes c.eventIds

def SyncDiffContent.encode (c : SyncDiffContent) : Bytes :=
  [syncVersion] ++ c.conversationId.bytes ++ c.responderDeviceId.bytes ++ c.sessionBinding.bytes ++
    Postcard.list Id.bytes c.requestedEventIds ++
    Postcard.list AuthorizedEvent.encodedBytes c.events ++ Postcard.bool c.moreAvailable

/-- The response of the server on the wire. -/
def SyncDiff.encode (d : SyncDiff) : Bytes := Postcard.varint 3 ++ d.content.encode ++ Postcard.bytes d.signature

/-- The request of the client on the wire. -/
def SyncEventBatch.encode (b : SyncEventBatch) : Bytes :=
  Postcard.varint 3 ++ [syncVersion] ++ b.conversationId.bytes ++ Postcard.list AuthorizedEvent.encodedBytes b.events

def validateEventId (seen : List Id) (id : Id) : Checked (List Id) := do
  failIf (id ∈ seen) (.duplicateSyncEventId id)
  return id :: seen

def validateEventIds (ids : List Id) (maximum : Nat) : Checked Unit := do
  failIf (ids.length > maximum) (if maximum = maxInventoryEventIds then
    .tooManyInventoryEventIds ids.length else .tooManySyncEventIds ids.length)
  let _ ← ids.foldlM validateEventId []

def validateEvent (conversation : Id) (seen : List Id) (e : AuthorizedEvent) : Checked (List Id) := do
  e.verifyAuthor
  failIf (e.event.conversationId ≠ conversation) (.syncConversationMismatch e.event.eventId)
  failIf (e.event.eventId ∈ seen) (.duplicateSyncEventId e.event.eventId)
  return e.event.eventId :: seen

def validateEvents (conversation : Id) (events : List AuthorizedEvent) : Checked Unit := do
  failIf (events.length > maxSyncEventsPerBatch) (.tooManySyncEvents events.length)
  let _ ← events.foldlM (validateEvent conversation) []

namespace SignedSyncInventory

def sign (identity : Id) (conversation binding : Id) (ids : List Id) : Checked SignedSyncInventory := do
  let content : SyncInventoryContent := ⟨conversation, identity, binding, ids.mergeSort fun a b => a ≤ b⟩
  validateEventIds content.eventIds maxInventoryEventIds
  return ⟨content, Authority.sign identity (inventorySignatureDomain ++ content.encode)⟩

def verifyForSession (i : SignedSyncInventory) (binding : Id) : Checked Unit := do
  validateEventIds i.content.eventIds maxInventoryEventIds
  failIf (Authority.verify i.content.requesterDeviceId
    (inventorySignatureDomain ++ i.content.encode) i.signature = false) .invalidSignature
  failIf (i.content.sessionBinding ≠ binding) .syncSessionMismatch

end SignedSyncInventory

def validateDiffContent (c : SyncDiffContent) : Checked Unit := do
  validateEventIds c.requestedEventIds maxSyncEventsPerBatch
  validateEvents c.conversationId c.events

namespace SyncDiff

def sign (identity : Id) (conversation binding : Id) (requested : List Id)
    (events : List AuthorizedEvent) (more : Bool) : Checked SyncDiff := do
  let content : SyncDiffContent := ⟨conversation, identity, binding, requested, events, more⟩
  validateDiffContent content
  return ⟨content, Authority.sign identity (diffSignatureDomain ++ content.encode)⟩

def verifyForSession (d : SyncDiff) (binding responder : Id) : Checked Unit := do
  validateDiffContent d.content
  failIf (Authority.verify d.content.responderDeviceId
    (diffSignatureDomain ++ d.content.encode) d.signature = false) .invalidSignature
  failIf (d.content.sessionBinding ≠ binding) .syncSessionMismatch
  failIf (d.content.responderDeviceId ≠ responder) .syncResponderMismatch

end SyncDiff

def SyncEventBatch.new (conversation : Id) (events : List AuthorizedEvent) : Checked SyncEventBatch := do
  validateEvents conversation events
  return ⟨conversation, events⟩

def SyncComplete.new (conversation : Id) (stored : List Id) (more : Bool) : Checked SyncComplete := do
  validateEventIds stored maxSyncEventsPerBatch
  return ⟨conversation, stored, more⟩

def sameEventIds (left right : List Id) : Prop :=
  left.length = right.length ∧ (∀ id ∈ left, id ∈ right) ∧ ∀ id ∈ right, id ∈ left
  deriving Decidable

/-- What both sides of a session agree on, and the device of each. -/
structure Session where
  conversationId : Id
  membership : ConversationMembershipSnapshot
  (sessionBinding client server : Id)

namespace Session
variable (σ : Session)

def inventory (s : EventStore) : Store.Result (List Id) :=
  authorizedInventory (s.loadAuthorizedConversation σ.conversationId σ.membership)

def eventsById (s : EventStore) (ids : List Id) : Store.Result (List AuthorizedEvent) :=
  authorizedEventsById (s.loadAuthorizedConversation σ.conversationId σ.membership)
    σ.conversationId ids

/-- The inventory of the client, and the ids it advertises. -/
def beginRound (s : EventStore) : Outcome (SignedSyncInventory × List Id) := do
  authorization σ.membership.verify
  failIf (σ.membership.conversationId ≠ σ.conversationId) .conversationMismatch
  let ids ← store (σ.inventory s)
  let inventory ← protocol (SignedSyncInventory.sign σ.client σ.conversationId σ.sessionBinding ids)
  return (inventory, ids)

structure SyncPlan where
  requestedFromRemote : List Id
  eventsForRemote : List AuthorizedEvent
  moreAvailable : Bool

/-- The ids of `a` that are not in `b`, in order. -/
def difference (a b : List Id) : List Id := (TreeSet.ofList a).toList.filter (· ∉ b)

def planSync (s : EventStore) (remote : List Id) (maximum : Nat) : Store.Result SyncPlan := do
  let localIds ← σ.inventory s
  let requested := difference remote localIds
  let forRemote := difference localIds remote
  let events ← σ.eventsById s (forRemote.take maximum)
  return ⟨requested.take maximum, events, requested.length > maximum ∨ forRemote.length > maximum⟩

structure ServerInventoryRound where
  conversationId : Id
  requestedEventIds : List Id
  sentEvents : Nat
  moreAvailable : Bool
  diff : SyncDiff

def acceptInventory (s : EventStore) (i : SignedSyncInventory) : Outcome ServerInventoryRound := do
  protocol (i.verifyForSession σ.sessionBinding)
  authorization σ.membership.verify
  failIf (σ.membership.conversationId ≠ i.content.conversationId) .conversationMismatch
  failIf (i.content.requesterDeviceId ≠ σ.client) .rejected
  let plan ← store (σ.planSync s i.content.eventIds maxSyncEventsPerBatch)
  let diff ← protocol (SyncDiff.sign σ.server i.content.conversationId σ.sessionBinding
    plan.requestedFromRemote plan.eventsForRemote plan.moreAvailable)
  return ⟨i.content.conversationId, plan.requestedFromRemote, plan.eventsForRemote.length, plan.moreAvailable, diff⟩

structure ClientBatchRound where
  batch : SyncEventBatch
  (sentEventIds receivedEventIds : List Id)
  moreAvailable : Bool

def checkDiff (advertised : List Id) (d : SyncDiff) : Outcome Unit := do
  protocol (d.verifyForSession σ.sessionBinding σ.server)
  failIf (d.content.conversationId ≠ σ.conversationId) .conversationMismatch
  match d.content.requestedEventIds.find? (· ∉ advertised) with
  | some id => throw (.unadvertisedEventRequested id)
  | none => protocol (d.content.events.forM (·.verifyForMembership σ.membership))

/-- The answer of the client once the events of the server are stored. -/
def answerDiff (s : EventStore) (d : SyncDiff) : Outcome ClientBatchRound := do
  let events ← store (σ.eventsById s d.content.requestedEventIds)
  let batch ← protocol (SyncEventBatch.new σ.conversationId events)
  return ⟨batch, events.map (·.event.eventId), d.content.events.map (·.event.eventId), d.content.moreAvailable⟩

def acceptDiff (s : EventStore) (advertised : List Id) (d : SyncDiff) : EventStore × Outcome ClientBatchRound :=
  match σ.checkDiff advertised d with
  | .error x => (s, .error x)
  | .ok _ =>
    match s.putAuthorizedBatch σ.membership d.content.events with
    | (s, .error x) => (s, .error (.store x))
    | (s, .ok _) => (s, σ.answerDiff s d)

def checkBatch (r : ServerInventoryRound) (b : SyncEventBatch) : Outcome Unit := do
  failIf (b.conversationId ≠ r.conversationId) .conversationMismatch
  failIf (¬ sameEventIds (b.events.map (·.event.eventId)) r.requestedEventIds)
    .batchEventIdsMismatch
  protocol (b.events.forM (·.verifyForMembership σ.membership))

def completeRound (s : EventStore) (r : ServerInventoryRound) (b : SyncEventBatch) :
    EventStore × Outcome SyncComplete :=
  match σ.checkBatch r b with
  | .error x => (s, .error x)
  | .ok _ =>
    match s.putAuthorizedBatch σ.membership b.events with
    | (s, .error x) => (s, .error (.store x))
    | (s, .ok _) => (s, protocol (SyncComplete.new r.conversationId
        (b.events.map (·.event.eventId)) r.moreAvailable))

def acceptComplete (r : ClientBatchRound) (c : SyncComplete) : Outcome Bool := do
  failIf (c.conversationId ≠ σ.conversationId) .conversationMismatch
  failIf (¬ sameEventIds c.storedEventIds r.sentEventIds) .completionEventIdsMismatch
  failIf (c.moreAvailable ≠ r.moreAvailable) .continuationMismatch
  return r.moreAvailable

/-- The two frames of a round that carry events. -/
structure Frames where
  diff : SyncDiff
  batch : SyncEventBatch

/-- One round between a client with the first store and a server with the second one. -/
def round (a b : EventStore) : Outcome (EventStore × EventStore × Frames × Bool) := do
  let (inventory, advertised) ← σ.beginRound a
  let server ← σ.acceptInventory b inventory
  let (a, client) := σ.acceptDiff a advertised server.diff
  let client ← client
  let (b, complete) := σ.completeRound b server client.batch
  let more ← σ.acceptComplete client (← complete)
  return (a, b, ⟨server.diff, client.batch⟩, more)

/-- Rounds as long as more is available, at most the given number. -/
def rounds : Nat → EventStore → EventStore → Outcome (EventStore × EventStore × List Frames)
  | 0, _, _ => throw .tooManyRounds
  | n + 1, a, b => do
    let (a, b, frames, more) ← σ.round a b
    if more then do
      let (a, b, rest) ← rounds n a b
      return (a, b, frames :: rest)
    else return (a, b, [frames])

end Session
end Kilogram.Sync
