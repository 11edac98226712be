import Kilogram.History.Wire
import Kilogram.Vault.Credits
import Kilogram.Lib.Counted

/-!
# Reading a managed history

The reads of the history layer over a committed root, and for a dialog bound to protocol 2 the
correspondence of every source with its projection, authority and receipts. All reads of a commit happen
before its first write, so they take the root and not the overlay.
-/

namespace Kilogram.History
open Kilogram Wire
open Except (failIf)

abbrev Read := Counted Error

/-- The namespace of a role. -/
def byRole (role : UInt8) (a b : Namespace) (e : Error) : Result Namespace :=
  if role = 0 then .ok a else if role = 1 then .ok b else .error e

def lane (c role : UInt8) (n : UInt64) : Result Key := do
  let ns ← byRole role .laneA .laneB (.integrity "history lane role")
  Key.ordinal c ns n

def receipt (c role : UInt8) (n : UInt64) : Result Key := do
  let ns ← byRole role .receiptA .receiptB (.integrity "history receipt role")
  Key.ordinal c ns n

def seenKey (c role : UInt8) (key : Id) : Result Key := do
  let ns ← byRole role .seenA .seenB (.bound "seen role")
  Key.hash c ns key

section
variable [Primitives]

def identityKey (c : UInt8) : Result Key := Key.hash c .control (Primitives.hash (ascii "kg:history2:scope-key\x00"))

def headsKey (c : UInt8) : Result Key := Key.hash c .current (Primitives.hash (ascii "kg:history2:heads-key\x00"))

def bindingKey (c : UInt8) : Result Key :=
  Key.hash c .control (hashParts (ascii "kg:history2:protocol2-binding\x00") [])

def finalKey (c : UInt8) (view event : Id) : Result Key := Key.hash c .control
    (hashParts (ascii "kg:history2:readable-authority\x00") [view.bytes, event.bytes])

def wireReceiptKey (c : UInt8) (view : Id) (role : UInt8) (n : UInt64) : Result Key := Key.hash c .control
    (hashParts (ascii "kg:history2:receipt-wire\x00") [view.bytes, [role], u64Bytes n])

end

def idValue (raw : Bytes) : Result Id := do
  failIf (raw.length ≠ 32) (.integrity "history Lane ID")
  return Id.ofBytes raw

structure StoredBinding where
  version : UInt8
  (c d e : Id)
  sid : Bytes
  role : UInt8
  proof : Bytes
  slots : Two UInt8

structure Protocol2Binding where
  proof : Bytes
  authorSlots : Two UInt8

namespace StoredBinding

def new (init : Init) (binding : Protocol2Binding) : StoredBinding :=
  ⟨2, init.scope.context, init.scope.dialog, init.scope.epoch, init.scope.sessionId, init.ownRole,
    binding.proof, binding.authorSlots⟩

def init (b : StoredBinding) : Init := ⟨⟨b.c, b.d, b.e, b.sid⟩, b.role⟩

def fields [Primitives] (b : StoredBinding) : Result FreshFields := do
  let f ← readFreshBinding2 b.proof
  failIf (b.version ≠ 2 ∨ b.role > 1 ∨ b.slots.zero > 2 ∨ b.slots.one > 2 ∨
    b.sid.length ≠ 43 ∨ b.sid.any (· ≥ 128) ∨ (f.c, f.d, f.e) ≠ (b.c, b.d, b.e))
    (.integrity "protocol2 stored binding")
  return f

def bytes (b : StoredBinding) : Bytes :=
  b.version :: (b.c.bytes ++ (b.d.bytes ++ (b.e.bytes ++ (Postcard.varint b.sid.length ++
    (b.sid ++ (b.role :: (Postcard.varint b.proof.length ++ (b.proof ++ [b.slots.zero, b.slots.one]))))))))

def encode [Primitives] (b : StoredBinding) : Result Bytes := do
  let _ ← b.fields
  return b.bytes

/-- A length of at most ten base-128 digits, the first of them at place `shift`. -/
def readVarint : Nat → Nat → Reader Nat
  | 0, _ => Reader.fail (.integrity "binding codec")
  | fuel + 1, shift => do
    let val ← Reader.byte
    if val < 128 then do
      Reader.failIf (fuel = 0 ∧ val > 1) (.integrity "binding codec")
      return val.toNat * 2 ^ shift
    else do
      let rest ← readVarint fuel (shift + 7)
      return (val.toNat - 128) * 2 ^ shift + rest

def decodeFields : Reader StoredBinding := do
  let version ← Reader.byte
  let c ← Reader.id
  let d ← Reader.id
  let e ← Reader.id
  let sidLen ← readVarint 10 0
  let sid ← Reader.take sidLen
  Reader.failIf (Utf8.valid sid = false) (.integrity "binding codec")
  let role ← Reader.byte
  let proofLen ← readVarint 10 0
  let proof ← Reader.take proofLen
  let s0 ← Reader.byte
  let s1 ← Reader.byte
  return ⟨version, c, d, e, sid, role, proof, ⟨s0, s1⟩⟩

/-- The binding at the front of the bytes and what follows it. -/
def takeFromBytes (raw : Bytes) : Result (StoredBinding × Bytes) :=
  match decodeFields raw with
  | .ok p => .ok p
  | .error _ => .error (.integrity "binding codec")

end StoredBinding

def fValue (id : Id) : Bytes := 1 :: id.bytes

def fId (raw : Bytes) : Result Id := do
  failIf (raw.length ≠ 33 ∨ raw.head? ≠ some 1) (.integrity "F link")
  return Id.ofBytes raw.tail

def receiptValue (raw : Bytes) : Bytes := 2 :: raw

def receiptRaw (value : Bytes) : Result Bytes := do
  failIf (value.head? ≠ some 2 ∨ value.length > 1025) (.integrity "receipt link")
  return value.tail

structure SeenRecord where
  generation : UInt64
  firstEvent : Id

def SeenRecord.encode (s : SeenRecord) : Bytes := u64Bytes s.generation ++ s.firstEvent.bytes

def seenRecord (raw : Bytes) : Result SeenRecord := do
  failIf (raw.length ≠ 40) (.integrity "seen width")
  return ⟨UInt64.ofNat (Bytes.toNat (raw.take 8)), Id.ofBytes (raw.drop 8)⟩

structure PendingView where
  event : Id
  body : Bytes
  head : Bool
  captures : Option (Id × Id)

def pendingView (raw : Bytes) : Result PendingView := do
  let t ← Ticket.decode raw
  failIf (t.stage ≠ 2) (.integrity "pending phase")
  return ⟨t.id, t.body, t.head, t.captures⟩

def historyTicket (raw : Bytes) (stage : UInt8) : Result (Id × Bytes) := do
  let t ← Ticket.decode raw
  failIf (t.stage ≠ stage) (.integrity "history ticket phase")
  return (t.id, t.body)

def pendingCaptures (raw : Bytes) : Result (Option (Id × Id)) := do
  let t ← Ticket.decode raw
  failIf (t.stage ≠ 2) (.integrity "pending capture stage")
  return t.captures

/-- The first identifiers of a tree at or after `start`, in order. -/
def range (r : Root) (s : Nat) (start : Id) (limit : Nat) : List Id :=
  ((r.records.toList.filter fun p => p.1.tree = s ∧ start ≤ p.1.bytes).take limit).map
    fun p => p.1.bytes

def hget (r : Root) (k : Result Key) : Read (Option Bytes) := do
  let k ← Counted.lift k
  Counted.tick (r.get k)

def hrequired (r : Root) (k : Result Key) : Read Bytes := do
  let v ← hget r k
  Counted.okOr v (.integrity "history expected record missing")

/-- The number of records in the tree of a key. -/
def countAt (r : Root) (k : Result Key) : Read Nat := do
  let k ← Counted.lift k
  let s ← Counted.lift k.slot
  return r.count s

abbrev AuthMap := Std.TreeMap Id Bytes

section
variable [Primitives] (r : Root)

def protoBinding (c : UInt8) : Read (Option (StoredBinding × FreshFields)) := do
  match ← hget r (bindingKey c) with
  | none => return none
  | some raw => do
    Counted.failIf (raw.length > 18 * 1024) (.integrity "binding cap")
    let (binding, tail) ← Counted.lift (StoredBinding.takeFromBytes raw)
    Counted.failIf (tail ≠ [] ∨ binding.c ≠ r.contexts.get c) (.integrity "binding context/trailing")
    let fields ← Counted.lift binding.fields
    return some (binding, fields)

def protoRequired (c : UInt8) : Read (StoredBinding × FreshFields) := do
  let b ← protoBinding r c
  Counted.okOr b (.integrity "protocol2 binding absent")

/-- A context whose control tree holds more than its identity is bound to protocol 2. -/
def history2BoundView (c : UInt8) : Read Bool := do
  let count ← countAt r (identityKey c)
  return count > 1

omit [Primitives] in
def laneReceiptCount (c : UInt8) (count : Nat) (role : UInt8) : Read Nat := do
  let lanes ← countAt r (lane c role 0)
  let count ← Counted.lift (addOr count lanes (.integrity "control source count"))
  let receipts ← countAt r (receipt c role 0)
  Counted.lift (addOr count receipts (.integrity "control receipt count"))

/-- The size of the control tree: identity and proof, a link for each source and one for each
receipt. -/
def history2ControlCount (c : UInt8) (init : Init) : Read Nat := do
  if ← history2BoundView r c then do
    let (binding, _) ← protoRequired r c
    Counted.failIf (binding.init ≠ init) (.integrity "protocol2 identity/binding")
    let count ← laneReceiptCount r c 2 0
    laneReceiptCount r c count 1
  else return 1

def resolveAuth (c : UInt8) (id cert : Id) (map staged : AuthMap) : Read Auth := do
  let stored ← hget r (Key.hash c .auth id)
  let provided := (map[id]?).or (staged[id]?)
  Counted.failIf (stored.isSome ∧ provided.isSome ∧ stored ≠ provided) .conflict
  let bytes ← Counted.okOr (provided.or stored) (.integrity "MissingReferencedAuth")
  let f ← Counted.lift (readAuthBundle bytes)
  Counted.failIf (f.id ≠ id ∨ f.cert ≠ cert) (.integrity "auth hash/certificate/role")
  return ⟨id, bytes⟩

omit [Primitives] in
def firstHalf (id : Id) : RequestId := BitVec.ofNat 128 (id.toNat / 2 ^ 128)

omit [Primitives] in
def checkScope (e : EventFields) (b : StoredBinding) (p : FreshFields) : Result Unit := do
  failIf (e.scope ≠ b.init.scope ∨ e.q ≠ p.q) .conflict
  failIf (e.n = 0 ∧ e.request ≠ firstHalf (if e.role = 0 then p.offer else p.grant)) (.integrity "genesis request/R4")

def checkReceipt (c : UInt8) (raw : Bytes) (e : EventFields) (b : StoredBinding) (p : FreshFields)
    (map : AuthMap) : Read Auth := do
  let f ← Counted.lift (readReceipt2 raw)
  Counted.failIf (f.scope ≠ e.scope ∨ f.q ≠ e.q ∨ f.format ≠ 2 ∨ f.role ≠ e.role ∨ f.n ≠ e.n ∨
    f.event ≠ e.id ∨ f.cert ≠ p.certs.get (1 - e.role) ∨ f.scope ≠ b.init.scope) .conflict
  resolveAuth r c f.auth f.cert map ∅

omit [Primitives] in
/-- The binding an event asks for, with its two hashes left open. -/
def normalized (e : EventFields) (view : Id) (parents : List Parent) : Result Binding := do
  failIf (parents.map Parent.event ≠ e.parents) (.integrity "source parents")
  return {
    format := 2, view, kind := e.kind, role := e.role, ordinal := e.n, sequence := e.sequence
    request := if e.n = 0 then 0 else e.request
    previous := e.previous, coreOffset := e.coreOffset, coreLen := e.coreLen, coreHash := 0
    sourceHash := 0, parents }

/-- The evidence of the peer's admission of a text. -/
def checkAdmission (c : UInt8) (id : Id) (e : EventFields) (p : FreshFields)
    (marker wire : Option Bytes) : Read Unit := do
  let captured ← hrequired r (Key.hash c .admission id)
  Counted.failIf (captured.length ≠ 65 ∨ captured.head? ≠ some 5 ∨
    (captured.drop 1).take 32 ≠ e.author.bytes) (.integrity "admission evidence")
  let admission := Id.ofBytes (captured.drop 33)
  let _ ← resolveAuth r c admission (p.certs.get e.role) ∅ ∅
  Counted.failIf (marker = none ∨ wire = none) (.integrity "peer receipt evidence")

def checkWire (c : UInt8) (id : Id) (e : EventFields) (b : StoredBinding) (p : FreshFields)
    (marker wire : Option Bytes) : Read Unit := do
  Counted.failIf (marker.isSome ≠ wire.isSome) (.integrity "receipt marker/wire")
  match wire with
  | none => return ()
  | some w => do
    Counted.failIf (e.kind ≠ 3 ∨ marker ≠ some id.bytes) (.integrity "receipt slot")
    let raw ← Counted.lift (receiptRaw w)
    let _ ← checkReceipt r c raw e b p ∅

def history2SourceCheck (c : UInt8) (id : Id) (binding : Binding) (raw : Bytes) : Read Unit := do
  if ← history2BoundView r c then do
    let (b, p) ← protoRequired r c
    let e ← Counted.lift (readEvent2 raw)
    Counted.lift (checkScope e b p)
    let expected ← Counted.lift (normalized e binding.view binding.parents)
    let core ← Counted.lift (coreSpan raw e.coreOffset e.coreLen)
    Counted.failIf (e.id ≠ id) (.integrity "protocol2 source/projection correspondence")
    let expectedRaw ← Counted.lift ({ expected with
      coreHash := Binding.coreHashOf 2 core, sourceHash := Binding.sourceHashOf 2 raw }).encode
    let bindingRaw ← Counted.lift binding.encode
    Counted.failIf (expectedRaw ≠ bindingRaw)
      (.integrity "protocol2 source/projection correspondence")
    let _ ← resolveAuth r c e.author (p.certs.get e.role) ∅ ∅
    let link ← hrequired r (finalKey c binding.view id)
    let f ← Counted.lift (fId link)
    let _ ← resolveAuth r c f (p.certs.get e.role) ∅ ∅
    let marker ← hget r (receipt c e.role e.n)
    let wire ← hget r (wireReceiptKey c binding.view e.role e.n)
    if e.kind = 3 ∧ e.role ≠ b.role then do
      checkAdmission r c id e p marker wire
      checkWire r c id e b p marker wire
    else checkWire r c id e b p marker wire
  else return ()

def historyStored (c : UInt8) : Read (Bytes × Bytes) := do
  let a ← hget r (identityKey c)
  let b ← hget r (headsKey c)
  match a, b with
  | some a, some b => return (a, b)
  | none, none => Counted.fail .historyUnavailable
  | _, _ => Counted.fail (.integrity "partial history view")

omit [Primitives] in
def checkLane (c : UInt8) (heads : Heads) (role : UInt8) : Read Unit := do
  let count ← countAt r (lane c role 0)
  Counted.failIf (heads.tails.get role = none ∧ (heads.frontiers.get role ≠ 1 ∨ count ≠ 0) ∨
    heads.tails.get role ≠ none ∧ count ≠ (heads.frontiers.get role).toNat)
    (.integrity "history heads/count")

def historyView (c : UInt8) : Read (Identity × Heads) := do
  let (a, b) ← historyStored r c
  let identity ← Counted.lift (Identity.decode a)
  let heads ← Counted.lift (Heads.decode b)
  Counted.failIf (identity.incarnation ≠ r.incarnation ∨
    identity.init.scope.context ≠ r.contexts.get c) (.integrity "history persisted scope/view")
  let view ← Counted.lift identity.viewId
  Counted.failIf (view ≠ heads.view) (.integrity "history persisted scope/view")
  let control ← countAt r (identityKey c)
  let expected ← history2ControlCount r c identity.init
  Counted.failIf (control ≠ expected) (.integrity "history persisted scope/view")
  let current ← countAt r (headsKey c)
  Counted.failIf (current ≠ 1) (.integrity "history persisted scope/view")
  checkLane r c heads 0
  checkLane r c heads 1
  Counted.failIf (heads.tails.one ≠ none ∧ heads.tails.zero = none ∨
    (heads.frontiers.zero > 1 ∨ heads.frontiers.one > 1) ∧
      (heads.tails.zero = none ∨ heads.tails.one = none)) (.integrity "history genesis shape")
  return (identity, heads)

/-- In a bound dialog a projection is read together with its source. -/
def checkBoundSource (c : UInt8) (id : Id) (binding : Binding) : Read Unit := do
  if ← history2BoundView r c then do
    let source ← hrequired r (Key.hash c .event id)
    history2SourceCheck r c id binding source
  else return ()

def historyProjection (c : UInt8) (id view : Id) : Read (Option (Binding × Text)) := do
  match ← hget r (Key.hash c .projection id) with
  | none => return none
  | some raw => do
    let projection ← Counted.lift (ProjectionValue.decode raw)
    let binding ← Counted.lift (Binding.decode projection.binding)
    Counted.failIf (binding.view ≠ view ∨ binding.kind ≠ 3 ∧ projection.text ≠ Text.empty)
      (.integrity "history projection view/kind")
    checkBoundSource r c id binding
    return some (binding, projection.text)

structure Row where
  id : Id
  role : UInt8
  (ordinal sequence : UInt64)
  request : RequestId
  text : Text

structure Candidate where
  row : Row
  binding : Binding

/-- Outside protocol 2 a candidate is checked against its source here. -/
def checkPlainSource (c : UInt8) (id : Id) (binding : Binding) : Read Unit := do
  if ← history2BoundView r c then return ()
  else do
    let source ← hrequired r (Key.hash c .event id)
    Counted.lift (binding.verifySource id source)

omit [Primitives] in
def laneId (c role : UInt8) (n : UInt64) : Read Id := do
  let raw ← hrequired r (lane c role n)
  Counted.lift (idValue raw)

omit [Primitives] in
def checkPrevious (c role : UInt8) (n : UInt64) (binding : Binding) : Read Unit := do
  if n > 0 then do
    let previous ← laneId r c role (n - 1)
    Counted.failIf (binding.previous ≠ some previous) (.integrity "history previous Lane")
  else return ()

def checkParent (c : UInt8) (id view : Id) (frontiers : Two UInt64) (p : Parent) : Read Unit := do
  Counted.failIf (p.ordinal ≥ frontiers.get p.role ∨ p.event = id)
    (.integrity "history parent frontier")
  let found ← historyProjection r c p.event view
  let (parent, _) ← Counted.okOr found (.integrity "history parent missing")
  Counted.failIf (parent.kind ≠ 3 ∨ parent.role ≠ p.role ∨ parent.ordinal ≠ p.ordinal)
    (.integrity "history parent mapping")
  let event ← laneId r c p.role p.ordinal
  Counted.failIf (event ≠ p.event) (.integrity "history parent mapping")

def historyCandidate (c role : UInt8) (n : UInt64) (view : Id) (frontiers : Two UInt64) : Read Candidate := do
  Counted.failIf (n ≥ frontiers.get role ∧ n ≠ 0) (.integrity "history candidate frontier")
  let id ← laneId r c role n
  let found ← historyProjection r c id view
  let (binding, text) ← Counted.okOr found (.integrity "history projection missing")
  Counted.failIf (binding.role ≠ role ∨ binding.ordinal ≠ n) (.integrity "history candidate slot")
  checkPlainSource r c id binding
  checkPrevious r c role n binding
  forM binding.parents (checkParent r c id view frontiers)
  return ⟨⟨id, role, n, binding.sequence, binding.request, text⟩, binding⟩

def protoSource (c : UInt8) (id : Id) (heads : Heads) : Read EventFields := do
  let raw ← hrequired r (Key.hash c .event id)
  let e ← Counted.lift (readEvent2 raw)
  let candidate ← historyCandidate r c e.role e.n heads.view heads.frontiers
  Counted.failIf (candidate.row.id ≠ id) (.integrity "protocol2 source Lane correspondence")
  return e

def bodyHash (text : Bytes) : Id := hashParts (ascii "kg:history2:request-body\x00") [text]

def materializedText (c : UInt8) (request : RequestId) (view event : Id) : Read Text := do
  let found ← historyProjection r c event view
  let (binding, text) ← Counted.okOr found (.integrity "history request Event")
  let raw ← hrequired r (identityKey c)
  let identity ← Counted.lift (Identity.decode raw)
  Counted.failIf (binding.kind ≠ 3 ∨ binding.request ≠ request ∨
    binding.role ≠ identity.init.ownRole) (.integrity "history materialized request")
  let id ← laneId r c binding.role binding.ordinal
  Counted.failIf (id ≠ event) (.integrity "history materialized request")
  let source ← hrequired r (Key.hash c .event event)
  Counted.lift (binding.verifySource event source)
  return text

omit [Primitives] in
def queuedText (c : UInt8) (request : RequestId) (queue : UInt64) : Read Text := do
  let raw ← hrequired r (Key.ordinal c .queue queue)
  let (id, body) ← Counted.lift (historyTicket raw 1)
  Counted.failIf (id ≠ requestHandle request) (.integrity "history Queue request")
  Counted.okOr (Text.ofBytes body) (.integrity "history Queue text")

def requestText (c : UInt8) (view : Id) (record : RequestRecord) : Read Text :=
  match record.event with
  | some event => materializedText r c record.request view event
  | none => queuedText r c record.request record.queue

def historyRequestRecord (c : UInt8) (request : RequestId) (view : Id) : Read (Option (RequestRecord × Text)) := do
  match ← hget r (Key.request c request) with
  | none => return none
  | some raw => do
    let record ← Counted.lift (RequestRecord.decode raw)
    Counted.failIf (record.request ≠ request) (.integrity "history request key")
    let text ← requestText r c view record
    Counted.failIf (bodyHash text.bytes ≠ record.bodyHash) (.integrity "history request body")
    return some (record, text)

end
end Kilogram.History
