import Kilogram.Vault.Types

/-!
# The ordered guard of a dialog

A guard keeps a bounded summary of the two lanes of a dialog: which event each side sent last, on which
chain, and whether the next own event has to start a new chain.
-/

namespace Kilogram.Ordered2
open Kilogram
open Except (failIf okOr)

inductive Counter where
  | ordinal | author | rootGeneration | nativeGeneration | laneGeneration | symmetric | turn

inductive Error where
  | counterExhausted (kind : Counter)
  | input (what : String)
  | checkpoint (what : String)

abbrev Result (α : Type) : Type := Except Error α
def successor (n : UInt64) (kind : Counter) : Result UInt64 := okOr (checkedAdd n 1) (.counterExhausted kind)
def consumeIndex (j : UInt64) : Result UInt64 := successor j .symmetric

def continuationIndex (last : UInt64) : Result (UInt64 × UInt64) := do
  let j ← successor last .symmetric
  let post ← consumeIndex j
  return (j, post)

/-- The place of a chain among the chains of both lanes. -/
def turn (role : UInt8) (g : UInt64) : Result UInt64 := do
  failIf (role > 1) (.input "role")
  okOr (if g.toNat * 2 + role.toNat < 2 ^ 64 then some (UInt64.ofNat (g.toNat * 2 + role.toNat))
    else none) (.counterExhausted .turn)

def dhStep (pre : UInt64) (role : UInt8) (g : UInt64) : Result UInt64 := do
  let post ← turn role g
  let next ← successor pre .turn
  failIf (next ≠ post) (.input "DH turn/phase")
  return post

def checkGenerations (root native : UInt64) : Result (UInt64 × UInt64) := do
  let root ← successor root .rootGeneration
  let native ← successor native .nativeGeneration
  return (root, native)

structure ClosedTail where
  g : UInt64
  key : Id
  index : UInt64
  last : Id
  deriving DecidableEq

structure Expected where
  (g index : UInt64)
  parent : Option Id
  tail : Option ClosedTail
  deriving DecidableEq

structure EventMeta where
  role : UInt8
  n : UInt64
  previous : Option Id
  sequence : UInt64
  (kind nativeKind : UInt8)
  key : Id
  index : UInt64
  expected : Expected
  deriving DecidableEq

structure Lane where
  next : UInt64
  last : Option Id
  g : UInt64
  key : Option Id
  index : UInt64
  (first parent : Option Id)
  sequence : Option UInt64
  deriving DecidableEq

namespace Lane

def empty : Lane := ⟨0, none, 0, none, 0, none, none, none⟩

def validate (l : Lane) (role : UInt8) : Result Unit := do
  failIf (decide (l.next = 0) ≠ l.last.isNone ∨ decide (l.next = 0) ≠ l.key.isNone ∨
    decide (l.next = 0) ≠ l.first.isNone ∨ decide (l.next = 0) ≠ l.sequence.isNone ∨
    l.next = 0 ∧ (l.g ≠ 0 ∨ l.index ≠ 0 ∨ l.parent ≠ none)) (.checkpoint "lane shape")
  if l.next = 0 then return ()
  else do
    let _ ← turn role l.g
    let _ ← consumeIndex l.index
    failIf (l.g ≥ l.next ∨ l.index ≥ l.next) (.checkpoint "lane counters")

def tail (l : Lane) : Result ClosedTail := do
  let key ← okOr l.key (.checkpoint "tail key")
  let last ← okOr l.last (.checkpoint "tail last")
  return ⟨l.g, key, l.index, last⟩

def record (l : Lane) (event : EventMeta) (id : Id) (next : UInt64) : Lane :=
  ⟨next, some id, event.expected.g, some event.key, event.index,
    if l.key ≠ some event.key then some id else l.first, event.expected.parent, some event.sequence⟩

end Lane

/-- The first event that used a key, as the authenticated index has it. -/
structure Seen where
  generation : UInt64
  first : Id

inductive SeenObservation where
  | absent
  | present (seen : Seen)

structure Guard2 where
  (version role : UInt8)
  (own peer : Lane)
  rotateDue : Bool
  (receivedNewFirst usedOwnFirst : Option Id)
  deriving DecidableEq

structure PreparedStep where
  before : Guard2
  event : EventMeta
  receive : Bool
  (next nativePostIndex nativePostTurn : UInt64)

def checkSeen (lane : Lane) (key : Id) (g : UInt64) (seen : SeenObservation) : Result Unit :=
  match decide (lane.key = some key), seen with
  | true, .present s =>
    failIf (s.generation ≠ g ∨ some s.first ≠ lane.first) (.input "seen replay/missing/first mismatch")
  | false, .absent => return ()
  | _, _ => throw (.input "seen replay/missing/first mismatch")

namespace Guard2

def new (role : UInt8) : Result Guard2 := do
  failIf (role > 1) (.input "role")
  return ⟨2, role, .empty, .empty, false, none, none⟩

/-- The turns of the two lanes follow each other; the side that is due to rotate is behind. -/
def checkTurns (s : Guard2) : Result Unit :=
  if s.peer.next ≠ 0 then do
    let peerTurn ← turn (1 - s.role) s.peer.g
    if s.own.next = 0 then
      failIf (s.role ≠ 1 ∨ peerTurn ≠ 0 ∨ s.rotateDue = false) (.checkpoint "inbound genesis phase")
    else do
      let ownTurn ← turn s.role s.own.g
      failIf (if s.rotateDue then checkedAdd ownTurn 1 ≠ some peerTurn
        else checkedAdd peerTurn 1 ≠ some ownTurn) (.checkpoint "two-lane turn provenance")
  else
    failIf (s.own.next ≠ 0 ∧ (s.role ≠ 0 ∨ s.own.g ≠ 0)) (.checkpoint "outbound genesis phase")

def validate (s : Guard2) : Result Unit := do
  failIf (s.version ≠ 2 ∨ s.role > 1) (.checkpoint "version/role")
  s.own.validate s.role
  s.peer.validate (1 - s.role)
  failIf (s.rotateDue ≠ (s.peer.first.isSome && s.usedOwnFirst = s.own.first) ∨
    s.peer.first ≠ s.receivedNewFirst) (.checkpoint "native Active/Inactive provenance")
  s.checkTurns
  failIf (s.rotateDue = true ∧ (s.peer.first ≠ s.receivedNewFirst ∨ s.peer.first = none ∨
      s.usedOwnFirst ≠ s.own.first) ∨
    s.receivedNewFirst ≠ none ∧ s.receivedNewFirst ≠ s.peer.first) (.checkpoint "rotation cause")

def currentTurn (s : Guard2) : Result UInt64 :=
  if s.rotateDue then turn (1 - s.role) s.peer.g
  else if s.own.next = 0 then return 0
  else turn s.role s.own.g

/-- The first event of a lane names the first one of the other lane, if that one has to come first. -/
def genesis (role : UInt8) (first : Option Id) : Result Expected :=
  if role = 0 then return ⟨0, 0, none, none⟩
  else do
    let first ← okOr first (.input "Confirm before Init")
    return ⟨0, 0, some first, none⟩

def expectedSend (s : Guard2) : Result Expected := do
  s.validate
  if s.own.next = 0 then genesis s.role s.peer.first
  else if s.rotateDue then do
    let g ← successor s.own.g .laneGeneration
    let tail ← s.own.tail
    return ⟨g, 0, s.receivedNewFirst, some tail⟩
  else do
    let (index, _) ← continuationIndex s.own.index
    return ⟨s.own.g, index, s.own.parent, none⟩

def expectedReceive (s : Guard2) (key : Id) : Result Expected :=
  if s.peer.next = 0 then genesis (1 - s.role) s.own.first
  else if s.peer.key = some key then do
    let (index, _) ← continuationIndex s.peer.index
    return ⟨s.peer.g, index, s.peer.parent, none⟩
  else do
    failIf (s.rotateDue = true) (.input "new peer DH in Inactive")
    let first ← okOr s.own.first (.input "peer DH without own first")
    failIf (s.usedOwnFirst = some first) (.input "reused own DH cause")
    let g ← successor s.peer.g .laneGeneration
    let tail ← s.peer.tail
    return ⟨g, 0, some first, some tail⟩

def expectedFor (s : Guard2) (receive : Bool) (key : Id) : Result Expected :=
  if receive then s.expectedReceive key else s.expectedSend

def checkSeenFor (s : Guard2) (receive : Bool) (event : EventMeta) (seen : Option SeenObservation) : Result Unit :=
  if receive then do
    let seen ← okOr seen (.input "seen observation")
    checkSeen s.peer event.key event.expected.g seen
  else return ()

def postTurn (s : Guard2) (receive : Bool) (event : EventMeta) : Result UInt64 := do
  let pre ← s.currentTurn
  if receive then
    if s.peer.key = some event.key then return pre
    else if 1 - s.role = 0 ∧ event.n = 0 then do
      failIf (pre ≠ 0 ∨ s.own.next ≠ 0) (.input "inbound constructor")
      return 0
    else dhStep pre (1 - s.role) event.expected.g
  else if s.rotateDue = true ∨ s.role = 1 ∧ s.own.next = 0 then
    dhStep pre s.role event.expected.g
  else return pre

def preflight (s : Guard2) (event : EventMeta) (receive : Bool) (seen : Option SeenObservation)
    (root native : UInt64) : Result PreparedStep := do
  s.validate
  let _ ← checkGenerations root native
  let lane := if receive then s.peer else s.own
  let role := if receive then 1 - s.role else s.role
  let next ← successor event.n .ordinal
  let _ ← successor event.sequence .author
  let postIndex ← consumeIndex event.index
  failIf (event.role ≠ role ∨ event.n ≠ lane.next ∨ event.previous ≠ lane.last ∨
    lane.sequence.any (fun q => event.sequence ≤ q) = true ∨ event.index ≠ event.expected.index ∨
    event.kind ≠ (if event.n = 0 then role + 1 else 3) ∨
    decide (event.kind = 1) ≠ decide (event.nativeKind = 0) ∨ event.nativeKind > 1)
    (.input "cursor/kind/header/sequence")
  let expected ← s.expectedFor receive event.key
  failIf (event.expected ≠ expected) (.input "expected native/ClosedTail")
  s.checkSeenFor receive event seen
  let post ← s.postTurn receive event
  return ⟨s, event, receive, next, postIndex, post⟩

def preflightSend (s : Guard2) (event : EventMeta) (root native : UInt64) : Result PreparedStep :=
  s.preflight event false none root native

def preflightReceive (s : Guard2) (event : EventMeta) (seen : SeenObservation)
    (root native : UInt64) : Result PreparedStep :=
  s.preflight event true (some seen) root native

/-- The guard after an accepted event, before it is validated. -/
def trial (s : Guard2) (step : PreparedStep) (actual : EventMeta) (id : Id) : Guard2 :=
  if step.receive then
    if s.peer.key ≠ some actual.key then
      { s with
        rotateDue := true
        receivedNewFirst := some id
        usedOwnFirst := s.own.first
        peer := s.peer.record actual id step.next }
    else { s with peer := s.peer.record actual id step.next }
  else { s with own := s.own.record actual id step.next, rotateDue := false }

def apply (s : Guard2) (step : PreparedStep) (actual : EventMeta) (id : Id) (seen : SeenObservation) :
    Result Guard2 := do
  let prepared := if step.receive then step.event else { step.event with key := actual.key }
  failIf (s ≠ step.before ∨ prepared ≠ actual) (.input "stale prepared step")
  failIf (step.receive = false ∧ s.own.next ≠ 0 ∧ s.rotateDue = false ∧
    s.own.key ≠ some actual.key) (.input "own continuation key")
  checkSeen (if step.receive then s.peer else s.own) actual.key actual.expected.g seen
  (s.trial step actual id).validate
  return s.trial step actual id

end Guard2
end Kilogram.Ordered2
