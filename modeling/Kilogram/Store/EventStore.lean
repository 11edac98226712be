import Kilogram.Store.Event
import Std.Data.TreeMap

/-!
# The event store

One directory a conversation, with a file for each event and a file for its authorization, both named
by the event id. Files are written once. A file holds the encoding of its event, which determines the
event; the model keeps the event.
-/

namespace Kilogram.Store
open Kilogram Std
open Except (failIf okOr)

inductive Path where
  | event (conversation id : Id)
  | authorization (conversation id : Id)
  deriving DecidableEq

inductive StoreError where
  | protocol (source : ProtocolError)
  | immutableEventConflict (path : Path) (id : Id)
  | immutableEventAuthorizationConflict (path : Path) (id : Id)
  | writerSequenceConflict (device : Id) (sequence : UInt64) (existing rejected : Id)
  | duplicateWriterSequence (conversation device : Id) (sequence : UInt64)
  | invalidStoredEvent (path : Path) (source : ProtocolError)
  | eventFileNameMismatch (path : Path) (id : Id)
  | conversationDirectoryMismatch (path : Path) (expected actual : Id)
  | conversationMembershipMismatch (conversation membership : Id)
  | eventAuthorizationMissing (path : Path) (id : Id)
  | invalidStoredAuthorization (path : Path) (source : ProtocolError)
  | eventAuthorizationMismatch (path : Path) (id : Id)
  | requestedEventMissing (conversation id : Id)
  | commandOverlayEventConflict (id : Id)
  deriving DecidableEq

abbrev Result (α : Type) := Except StoreError α
def checked {α : Type} (x : Checked α) : Result α := x.mapError .protocol

/-- The files of one conversation. -/
structure Directory where
  events : TreeMap Id SignedEvent
  authorizations : TreeMap Id AuthorizedEvent

def Directory.empty : Directory := ⟨∅, ∅⟩
abbrev EventStore := TreeMap Id Directory

structure StoredEvent where
  id : Id
  event : SignedEvent

structure StoredAuthorizedEvent where
  id : Id
  event : AuthorizedEvent
  deriving DecidableEq

inductive StoreOutcome where
  | inserted
  | alreadyPresent

variable [Authority]

namespace EventStore

/-- A missing directory reads as an empty one. -/
def directory (s : EventStore) (conversation : Id) : Directory := (s[conversation]?).getD .empty

def persistEvent (s : EventStore) (e : SignedEvent) : EventStore :=
  let dir := s.directory e.conversationId
  s.insert e.conversationId { dir with events := dir.events.insert e.eventId e }

def persistAuthorization (s : EventStore) (e : AuthorizedEvent) : EventStore :=
  let dir := s.directory e.event.conversationId
  s.insert e.event.conversationId
    { dir with authorizations := dir.authorizations.insert e.event.eventId e }

end EventStore

def checkStoredEvent (conversation : Id) (file : Id × SignedEvent) : Result StoredEvent := do
  let path := Path.event conversation file.1
  file.2.verify.mapError (.invalidStoredEvent path)
  failIf (file.2.eventId ≠ file.1) (.eventFileNameMismatch path file.2.eventId)
  failIf (file.2.conversationId ≠ conversation)
    (.conversationDirectoryMismatch path conversation file.2.conversationId)
  return ⟨file.1, file.2⟩

def checkPositions (conversation : Id) (seen : List (Id × UInt64)) : List (Id × UInt64) → Result Unit
  | [] => return ()
  | p :: rest => do
    failIf (p ∈ seen) (.duplicateWriterSequence conversation p.1 p.2)
    checkPositions conversation (p :: seen) rest

def checkStoredAuthorization (m : ConversationMembershipSnapshot) (conversation : Id)
    (files : TreeMap Id AuthorizedEvent) (stored : StoredEvent) : Result StoredAuthorizedEvent := do
  let path := Path.authorization conversation stored.id
  let authorized ← okOr files[stored.id]? (.eventAuthorizationMissing path stored.id)
  authorized.verifyAuthor.mapError (.invalidStoredAuthorization path)
  checked (authorized.verifyForMembership m)
  failIf (authorized.event ≠ stored.event ∨ authorized.event.eventId ≠ stored.id)
    (.eventAuthorizationMismatch path stored.id)
  return ⟨stored.id, authorized⟩

namespace EventStore

def loadConversation (s : EventStore) (conversation : Id) : Result (List StoredEvent) := do
  let events ← (s.directory conversation).events.toList.mapM (checkStoredEvent conversation)
  checkPositions conversation [] (events.map (·.event.position))
  return events

def loadAuthorizedConversation (s : EventStore) (conversation : Id)
    (m : ConversationMembershipSnapshot) : Result (List StoredAuthorizedEvent) := do
  checked m.verify
  failIf (m.conversationId ≠ conversation) (.conversationMembershipMismatch conversation m.conversationId)
  let stored ← s.loadConversation conversation
  stored.mapM (checkStoredAuthorization m conversation (s.directory conversation).authorizations)

/-- The events that no event names as a parent. -/
def frontier (s : EventStore) (conversation : Id) : Result (List Id) := do
  let events ← s.loadConversation conversation
  let referenced := events.flatMap (·.event.parents)
  return (events.map StoredEvent.id).filter (· ∉ referenced)

end EventStore

def authorizedInventory (loaded : Result (List StoredAuthorizedEvent)) : Result (List Id) := do
  return (← loaded).map StoredAuthorizedEvent.id

def requestEvent (conversation : Id) (available : List StoredAuthorizedEvent) (id : Id) : Result AuthorizedEvent :=
  okOr ((available.find? (·.id = id)).map StoredAuthorizedEvent.event)
    (.requestedEventMissing conversation id)

def authorizedEventsById (loaded : Result (List StoredAuthorizedEvent)) (conversation : Id)
    (requested : List Id) : Result (List AuthorizedEvent) := do
  let available ← loaded
  requested.mapM (requestEvent conversation available)

/-! ## Writing

A call that fails keeps what it has written until then. -/

def validateExistingEvent (conversation : Id) (stored e : SignedEvent) : Result StoreOutcome :=
  if stored = e then .ok .alreadyPresent
  else .error (.immutableEventConflict (.event conversation e.eventId) e.eventId)

def validateExistingAuthorization (stored e : AuthorizedEvent) : Result Unit :=
  if stored = e then .ok ()
  else .error (.immutableEventAuthorizationConflict
    (.authorization e.event.conversationId e.event.eventId) e.event.eventId)

namespace EventStore

def put (s : EventStore) (e : SignedEvent) : EventStore × Result StoreOutcome :=
  match checked e.verify with
  | .error x => (s, .error x)
  | .ok _ =>
    match (s.directory e.conversationId).events[e.eventId]? with
    | some stored => (s, validateExistingEvent e.conversationId stored e)
    | none =>
      match s.loadConversation e.conversationId with
      | .error x => (s, .error x)
      | .ok events =>
        match events.find? (·.event.position = e.position) with
        | some stored => (s, .error (.writerSequenceConflict e.position.1 e.position.2
            stored.id e.eventId))
        | none => (s.persistEvent e, .ok .inserted)

/-- The second file of an event. -/
def putAuthorization (s : EventStore) (e : AuthorizedEvent) : EventStore × Result Unit :=
  match checked e.verifyAuthor with
  | .error x => (s, .error x)
  | .ok _ =>
    match (s.directory e.event.conversationId).authorizations[e.event.eventId]? with
    | some stored => (s, validateExistingAuthorization stored e)
    | none => (s.persistAuthorization e, .ok ())

def putAuthorizedWithReceipt (s : EventStore) (m : ConversationMembershipSnapshot)
    (e : AuthorizedEvent) : EventStore × Result (StoreOutcome × List Path) :=
  match checked (e.verifyForMembership m) with
  | .error x => (s, .error x)
  | .ok _ =>
    match s.put e.event with
    | (s, .error x) => (s, .error x)
    | (s, .ok outcome) =>
      match s.putAuthorization e with
      | (s, .error x) => (s, .error x)
      | (s, .ok _) =>
        (s, .ok (outcome, [.event e.event.conversationId e.event.eventId,
          .authorization e.event.conversationId e.event.eventId]))

def putAuthorized (s : EventStore) (m : ConversationMembershipSnapshot) (e : AuthorizedEvent) :
    EventStore × Result StoreOutcome :=
  let (s, r) := s.putAuthorizedWithReceipt m e
  (s, r.map Prod.fst)

/-- The new events of one conversation, checked and written one after the other. -/
def putNewEvents (s : EventStore) (positions : List ((Id × UInt64) × Id)) :
    List SignedEvent → EventStore × Result Unit
  | [] => (s, .ok ())
  | e :: rest =>
    match (s.directory e.conversationId).events[e.eventId]? with
    | some stored =>
      match validateExistingEvent e.conversationId stored e with
      | .error x => (s, .error x)
      | .ok _ => putNewEvents s positions rest
    | none =>
      match positions.lookup e.position with
      | some existing => (s, .error (.writerSequenceConflict e.position.1 e.position.2
          existing e.eventId))
      | none => putNewEvents (s.persistEvent e) ((e.position, e.eventId) :: positions) rest

/-- The groups of a batch. The source visits them in the order of a hash map; an authorized batch
has only one. -/
def groups (events : List SignedEvent) : List (Id × List SignedEvent) :=
  (events.map SignedEvent.conversationId).eraseDups.map fun c =>
    (c, events.filter (·.conversationId = c))

def putGroups (s : EventStore) : List (Id × List SignedEvent) → EventStore × Result Unit
  | [] => (s, .ok ())
  | (conversation, events) :: rest =>
    match s.loadConversation conversation with
    | .error x => (s, .error x)
    | .ok existing =>
      match s.putNewEvents (existing.map fun x => (x.event.position, x.id)) events with
      | (s, .error x) => (s, .error x)
      | (s, .ok _) => putGroups s rest

def putBatch (s : EventStore) (events : List SignedEvent) : EventStore × Result Unit :=
  match checked (events.forM SignedEvent.verify) with
  | .error x => (s, .error x)
  | .ok _ => s.putGroups (groups events)

def putReceipts (s : EventStore) (m : ConversationMembershipSnapshot) (receipt : List Path) :
    List AuthorizedEvent → EventStore × Result (List Path)
  | [] => (s, .ok receipt)
  | e :: rest =>
    match s.putAuthorizedWithReceipt m e with
    | (s, .error x) => (s, .error x)
    | (s, .ok (_, paths)) => putReceipts s m (receipt ++ paths) rest

def putAuthorizedBatchWithReceipt (s : EventStore) (m : ConversationMembershipSnapshot)
    (events : List AuthorizedEvent) : EventStore × Result (List Path) :=
  match checked (events.forM (·.verifyForMembership m)) with
  | .error x => (s, .error x)
  | .ok _ =>
    match s.putBatch (events.map AuthorizedEvent.event) with
    | (s, .error x) => (s, .error x)
    | (s, .ok _) => s.putReceipts m [] events

def putAuthorizedBatch (s : EventStore) (m : ConversationMembershipSnapshot)
    (events : List AuthorizedEvent) : EventStore × Result Unit :=
  let (s, r) := s.putAuthorizedBatchWithReceipt m events
  (s, r.map fun _ => ())

end EventStore
end Kilogram.Store
