import Kilogram.Store.Passes
import Std.Data.TreeSet

/-!
# The read overlay of a command

A command reads through an immutable base and the events it has committed itself.
-/

namespace Kilogram.Store
open Kilogram Std
variable [Authority]

structure CommandEventReadOverlay where
  base : EventStore
  committed : TreeMap Id AuthorizedEvent

namespace CommandEventReadOverlay

def committedOf (o : CommandEventReadOverlay) (conversation : Id) : List (Id × AuthorizedEvent) :=
  o.committed.toList.filter (·.2.event.conversationId = conversation)

end CommandEventReadOverlay

def mergeCommitted (m : ConversationMembershipSnapshot) (merged : TreeMap Id AuthorizedEvent) :
    List (Id × AuthorizedEvent) → Result (TreeMap Id AuthorizedEvent)
  | [] => return merged
  | (_, e) :: rest => do
    checked (e.verifyForMembership m)
    Except.failIf (merged[e.event.eventId]?.any (· ≠ e) = true)
      (.commandOverlayEventConflict e.event.eventId)
    mergeCommitted m (merged.insert e.event.eventId e) rest

namespace CommandEventReadOverlay

def loadAuthorizedConversation (o : CommandEventReadOverlay) (conversation : Id)
    (m : ConversationMembershipSnapshot) : Result (List StoredAuthorizedEvent) := do
  let base ← o.base.loadAuthorizedConversation conversation m
  let merged ← mergeCommitted m (TreeMap.ofList (base.map fun x => (x.id, x.event))) (o.committedOf conversation)
  let stored := merged.toList.map fun f => (⟨f.1, f.2⟩ : StoredAuthorizedEvent)
  checkPositions conversation [] (stored.map (·.event.event.position))
  return stored

/-- The frontier of the base with the committed events, without the parents of the committed ones. -/
def frontier (o : CommandEventReadOverlay) (conversation : Id) : Result (List Id) := do
  let base ← o.base.frontier conversation
  let events := o.committedOf conversation
  let parents := events.flatMap (·.2.event.parents)
  return (TreeSet.ofList (base ++ events.map Prod.fst)).toList.filter (· ∉ parents)

end CommandEventReadOverlay

def stageEvents (m : ConversationMembershipSnapshot) (conversation : Id)
    (byId : TreeMap Id AuthorizedEvent) (positions : List ((Id × UInt64) × Id))
    (staged : List AuthorizedEvent) : List AuthorizedEvent → Result (List AuthorizedEvent)
  | [] => return staged
  | e :: rest => do
    checked (e.verifyForMembership m)
    Except.failIf (e.event.conversationId ≠ conversation)
      (.conversationMembershipMismatch e.event.conversationId m.conversationId)
    match byId[e.event.eventId]? with
    | some existing =>
      if existing ≠ e then throw (.commandOverlayEventConflict e.event.eventId)
      else stageEvents m conversation byId positions staged rest
    | none =>
      match positions.lookup e.event.position with
      | some existing =>
        throw (.writerSequenceConflict e.event.position.1 e.event.position.2 existing
          e.event.eventId)
      | none =>
        stageEvents m conversation (byId.insert e.event.eventId e)
          ((e.event.position, e.event.eventId) :: positions) (staged ++ [e]) rest

def commitEvents (committed : TreeMap Id AuthorizedEvent) (inserted : Nat) :
    List AuthorizedEvent → TreeMap Id AuthorizedEvent × Result Nat
  | [] => (committed, .ok inserted)
  | e :: rest =>
    match committed[e.event.eventId]? with
    | some existing =>
      if existing ≠ e then (committed, .error (.commandOverlayEventConflict e.event.eventId))
      else commitEvents committed inserted rest
    | none => commitEvents (committed.insert e.event.eventId e) (inserted + 1) rest

namespace CommandEventReadOverlay

def stageCommitted (o : CommandEventReadOverlay) (events : List AuthorizedEvent)
    (m : ConversationMembershipSnapshot) : Result (List AuthorizedEvent) := do
  checked m.verify
  match events with
  | [] => return []
  | first :: _ => do
    let conversation := first.event.conversationId
    Except.failIf (conversation ≠ m.conversationId)
      (.conversationMembershipMismatch conversation m.conversationId)
    let existing ← o.loadAuthorizedConversation conversation m
    stageEvents m conversation (TreeMap.ofList (existing.map fun x => (x.id, x.event)))
      (existing.map fun x => (x.event.event.position, x.id)) [] events

def commitStaged (o : CommandEventReadOverlay) (staged : List AuthorizedEvent) :
    CommandEventReadOverlay × Result Nat :=
  let (committed, r) := commitEvents o.committed 0 staged
  (⟨o.base, committed⟩, r)

/-- The overlays of a base: every staged list is committed before the next one is staged. -/
inductive Reachable (base : EventStore) : CommandEventReadOverlay → Prop
  | new : Reachable base ⟨base, ∅⟩
  | commit {o : CommandEventReadOverlay} {events staged : List AuthorizedEvent}
      {m : ConversationMembershipSnapshot} (ho : Reachable base o)
      (h : o.stageCommitted events m = .ok staged) : Reachable base (o.commitStaged staged).1

/-- A store that holds the events of the base and the committed ones. -/
def union (o : CommandEventReadOverlay) : EventStore :=
  o.committed.toList.foldl (fun s f => (s.persistEvent f.2.event).persistAuthorization f.2) o.base

end CommandEventReadOverlay
end Kilogram.Store
