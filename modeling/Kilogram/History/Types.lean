import Kilogram.Vault.Ledger
import Kilogram.Vault.Crypto

/-!
# Claims and records of a managed history

The operations an adapter submits, and the fixed-width records the history keeps: its identity, its
heads, the binding of each projection and the state of each outgoing request.
-/

namespace Kilogram.History
open Kilogram
open Except (failIf)

structure Scope where
  (context dialog epoch : Id)
  sessionId : Bytes
  deriving DecidableEq

structure Init where
  scope : Scope
  ownRole : UInt8
  deriving DecidableEq

structure Parent where
  event : Id
  role : UInt8
  ordinal : UInt64

structure Auth where
  id : Id
  bytes : Bytes

structure Capture where
  (original admission : Auth)

structure Seen where
  key : Id
  generation : UInt64

structure Extras where
  auth : List Auth
  seen : Option Seen
  authorSlot : Option UInt8

structure PreparedReadable where
  scope : Scope
  format : UInt8
  source : Bytes
  (coreOffset coreLen : UInt16)
  (kind role : UInt8)
  (ordinal sequence : UInt64)
  request : RequestId
  previous : Option Id
  parents : List Parent
  text : Text
  extras : Extras

structure NativeTransition where
  beforeHash : Option Id
  afterBlob : Bytes
  frameIds : List Id

structure Pending where
  scope : Scope
  format : UInt8
  ordinal : UInt64
  source : Bytes
  head : Bool
  grant : Option Id
  capture : Option Capture

inductive Repair where
  | grant (id : Id) (start stop : UInt64)
  | cancelGrant (id : Id)
  | refill (bytes : Nat)

inductive Operation where
  | init (init : Init)
  | genesis (row : PreparedReadable) (native : NativeTransition)
  | textBatch (rows : List PreparedReadable) (native : NativeTransition)
  | queueAccept (request : RequestId) (text : Text)
  | acceptPending (pending : Pending)
  | capturePending (ordinal : UInt64) (event : Id) (capture : Capture)
  | repairCredit (repair : Repair)
  | acknowledge (ordinal : UInt64) (event : Id) (auth : List Auth)

section
variable [Primitives]

def hashParts (domain : Bytes) (parts : List Bytes) : Id := Primitives.hash (domain ++ parts.flatten)

def sourceDomain : UInt8 → Option Bytes
  | 1 => some (ascii "kg:od1:event-id\x00")
  | 2 => some (ascii "kg:od2:event-id\x00")
  | _ => none

def sourceId (format : UInt8) (raw : Bytes) : Result Id := do
  let domain ← Except.okOr (sourceDomain format) (.integrity "history source format")
  failIf (raw = [] ∨ raw.length > 16 * 1024) (.bound "history source")
  return hashParts domain [raw]

end

def validateScope (s : Scope) : Result Unit :=
  failIf (s.sessionId.length ≠ 43 ∨ s.sessionId.any (· ≥ 128)) (.bound "history SID")

def coreSpan (raw : Bytes) (offset len : UInt16) : Result Bytes := do
  failIf (¬ (1 ≤ len ∧ len ≤ 2048)) (.integrity "history Core length")
  failIf (raw.length < offset.toNat + len.toNat) (.integrity "history Core span")
  return (raw.drop offset.toNat).take len.toNat

def Auth.checkBound (a : Auth) : Result Unit := failIf (a.bytes.length > 16 * 1024) (.bound "history auth")

def Capture.checkBound (c : Capture) : Result Unit := do
  c.original.checkBound
  c.admission.checkBound

def Extras.checkBound (e : Extras) : Result Unit := do
  failIf (e.auth.length > 2 ∨ e.authorSlot.any (· > 2)) (.bound "history extras")
  forM e.auth Auth.checkBound

def NativeTransition.checkBound (t : NativeTransition) : Result Unit :=
  failIf (t.afterBlob = [] ∨ t.afterBlob.length > 128 * 1024 ∨ t.frameIds.length > 4)
    (.bound "history native transition")

section
variable [Primitives]

def PreparedReadable.eventId (row : PreparedReadable) : Result Id := sourceId row.format row.source

def PreparedReadable.checkBound (row : PreparedReadable) : Result Unit := do
  failIf (row.source.length > 16 * 1024 ∨ row.text.length > 4096 ∨ row.parents.length > 2)
    (.bound "history row input")
  validateScope row.scope
  let _ ← row.eventId
  let _ ← coreSpan row.source row.coreOffset row.coreLen
  row.extras.checkBound

def Operation.checkBound : Operation → Result Unit
  | .init i => do
    validateScope i.scope
    failIf (i.ownRole > 1) (.bound "history own role")
  | .genesis row native => do
    row.checkBound
    native.checkBound
  | .textBatch rows native => do
    failIf (rows = [] ∨ rows.length > 4) (.bound "history batch")
    forM rows PreparedReadable.checkBound
    native.checkBound
  | .queueAccept _ text => failIf (text.length > 4096) (.bound "history queue text")
  | .acceptPending p => do
    validateScope p.scope
    failIf (p.source.length > 16 * 1024 ∨ p.ordinal = 0) (.bound "history pending")
    let _ ← sourceId p.format p.source
    match p.capture with
    | some c => c.checkBound
    | none => return ()
  | .capturePending _ _ capture => capture.checkBound
  | .repairCredit _ => return ()
  | .acknowledge _ _ auth => do
    failIf (auth.length > 2) (.bound "history ack auth")
    forM auth Auth.checkBound

end

def putOptional (id : Option Id) : Bytes :=
  match id with
  | some id => 1 :: id.bytes
  | none => 0 :: Id.bytes 0

def readOptional : Reader (Option Id) := do
  let flag ← Reader.byte
  let id ← Reader.id
  if flag = 0 ∧ id = 0 then return none
  else if flag = 1 then return some id
  else Reader.fail (.integrity "history optional ID")

structure Identity where
  incarnation : Id
  init : Init
  deriving DecidableEq

namespace Identity

def encode (i : Identity) : Result Bytes := do
  validateScope i.init.scope
  failIf (i.init.ownRole > 1) (.integrity "history role")
  return ascii "HVI1" ++ (i.incarnation.bytes ++ (i.init.scope.context.bytes ++
    (i.init.scope.dialog.bytes ++ (i.init.scope.epoch.bytes ++ (i.init.scope.sessionId ++ [i.init.ownRole, 2])))))

def decodeFields : Reader Identity := do
  let magic ← Reader.take 4
  Reader.failIf (magic ≠ ascii "HVI1") (.integrity "history identity codec")
  let incarnation ← Reader.id
  let context ← Reader.id
  let dialog ← Reader.id
  let epoch ← Reader.id
  let sid ← Reader.take 43
  Reader.failIf (Utf8.valid sid = false) (.integrity "history SID UTF8")
  let ownRole ← Reader.byte
  let semantics ← Reader.byte
  Reader.failIf (semantics ≠ 2) (.integrity "history view semantics")
  Reader.atEnd
  return ⟨incarnation, ⟨⟨context, dialog, epoch, sid⟩, ownRole⟩⟩

def decode (raw : Bytes) : Result Identity := do
  let i ← Reader.decode decodeFields raw
  match i.encode with
  | .error _ => throw (.integrity "history identity fields")
  | .ok canonical => do
    failIf (canonical ≠ raw) (.integrity "history identity canonical")
    return i

def viewId [Primitives] (i : Identity) : Result Id := do
  let raw ← i.encode
  return hashParts (ascii "kg:history2:view\x00") [raw]

end Identity

structure Heads where
  view : Id
  frontiers : Two UInt64
  tails : Two (Option Id)

namespace Heads

def encode (h : Heads) : Bytes :=
  ascii "HHD1" ++ (h.view.bytes ++ (u64Bytes h.frontiers.zero ++ (u64Bytes h.frontiers.one ++
    (putOptional h.tails.zero ++ putOptional h.tails.one))))

def decodeFields : Reader Heads := do
  let magic ← Reader.take 4
  Reader.failIf (magic ≠ ascii "HHD1") (.integrity "history heads codec")
  let view ← Reader.id
  let f0 ← Reader.u64
  let f1 ← Reader.u64
  let t0 ← readOptional
  let t1 ← readOptional
  Reader.atEnd
  Reader.failIf (f0 = 0 ∨ f1 = 0) (.integrity "history frontier")
  return ⟨view, ⟨f0, f1⟩, ⟨t0, t1⟩⟩

def decode (raw : Bytes) : Result Heads := Reader.decode decodeFields raw

end Heads

structure Binding where
  format : UInt8
  view : Id
  (kind role : UInt8)
  (ordinal sequence : UInt64)
  request : RequestId
  previous : Option Id
  (coreOffset coreLen : UInt16)
  (coreHash sourceHash : Id)
  parents : List Parent

namespace Binding

/-- Parents name texts and are listed by increasing event identifier. -/
def checkParents : Option Id → List Parent → Result Unit
  | _, [] => return ()
  | previous, p :: ps => do
    failIf (p.role > 1 ∨ p.ordinal = 0 ∨ previous.any (fun id => decide (id ≥ p.event)))
      (.integrity "history parents")
    checkParents (some p.event) ps

def check (b : Binding) : Result Unit := do
  failIf (¬ (1 ≤ b.format ∧ b.format ≤ 2) ∨ b.role > 1 ∨ b.parents.length > 2 ∨
    ¬ (1 ≤ b.coreLen ∧ b.coreLen ≤ 2048)) (.integrity "history binding fields")
  if b.kind = 3 then
    failIf (b.ordinal = 0 ∨ b.previous = none) (.integrity "history Text")
  else
    failIf (¬ ((b.kind = 1 ∧ b.role = 0) ∨ (b.kind = 2 ∧ b.role = 1)) ∨ b.ordinal ≠ 0 ∨
      b.request ≠ 0 ∨ b.previous ≠ none ∨ b.parents ≠ []) (.integrity "history genesis")
  checkParents none b.parents

def encodeParent (p : Parent) : Bytes := p.event.bytes ++ (p.role :: u64Bytes p.ordinal)

def encode (b : Binding) : Result Bytes := do
  b.check
  return ascii "HPB1" ++ (b.format :: (b.view.bytes ++ (b.kind :: b.role ::
    (u64Bytes b.ordinal ++ (u64Bytes b.sequence ++ (Bytes.ofNat 16 b.request.toNat ++
      (putOptional b.previous ++ (Bytes.ofNat 2 b.coreOffset.toNat ++
        (Bytes.ofNat 2 b.coreLen.toNat ++ (b.coreHash.bytes ++ (b.sourceHash.bytes ++
          (UInt8.ofNat b.parents.length :: b.parents.flatMap encodeParent))))))))))))

def readParent : Reader Parent := do
  let event ← Reader.id
  let role ← Reader.byte
  let ordinal ← Reader.u64
  return ⟨event, role, ordinal⟩

def readParents : Nat → Reader (List Parent)
  | 0 => return []
  | n + 1 => do
    let p ← readParent
    let ps ← readParents n
    return p :: ps

def decodeFields : Reader Binding := do
  let magic ← Reader.take 4
  Reader.failIf (magic ≠ ascii "HPB1") (.integrity "history binding version")
  let format ← Reader.byte
  let view ← Reader.id
  let kind ← Reader.byte
  let role ← Reader.byte
  let ordinal ← Reader.u64
  let sequence ← Reader.u64
  let request ← Reader.take 16
  let previous ← readOptional
  let coreOffset ← Reader.u16
  let coreLen ← Reader.u16
  let coreHash ← Reader.id
  let sourceHash ← Reader.id
  let count ← Reader.byte
  Reader.failIf (count > 2) (.integrity "history parent count")
  let parents ← readParents count.toNat
  Reader.atEnd
  return ⟨format, view, kind, role, ordinal, sequence, BitVec.ofNat 128 (Bytes.toNat request),
    previous, UInt16.ofNat coreOffset, UInt16.ofNat coreLen, coreHash, sourceHash, parents⟩

def decode (raw : Bytes) : Result Binding := do
  let b ← Reader.decode decodeFields raw
  b.check
  return b

section
variable [Primitives]

def coreHashOf (format : UInt8) (core : Bytes) : Id := hashParts (ascii "kg:history2:core\x00") [[format], core]

def sourceHashOf (format : UInt8) (source : Bytes) : Id :=
  hashParts (ascii "kg:history2:source\x00") [[format], source]

def verifySource (b : Binding) (id : Id) (source : Bytes) : Result Unit := do
  let found ← sourceId b.format source
  failIf (found ≠ id ∨ sourceHashOf b.format source ≠ b.sourceHash) (.integrity "history source/Core binding")
  let core ← coreSpan source b.coreOffset b.coreLen
  failIf (coreHashOf b.format core ≠ b.coreHash) (.integrity "history source/Core binding")

end
end Binding

structure RequestRecord where
  queue : UInt64
  request : RequestId
  bodyHash : Id
  event : Option Id

namespace RequestRecord

def encode (r : RequestRecord) : Bytes :=
  ascii "HRQ1" ++ (r.event.isSome.toUInt8 :: (u64Bytes r.queue ++ (Bytes.ofNat 16 r.request.toNat ++
    (r.bodyHash.bytes ++ putOptional r.event))))

def decodeFields : Reader RequestRecord := do
  let magic ← Reader.take 4
  Reader.failIf (magic ≠ ascii "HRQ1") (.integrity "history Request codec")
  let state ← Reader.byte
  let queue ← Reader.u64
  let request ← Reader.take 16
  let bodyHash ← Reader.id
  let event ← readOptional
  Reader.atEnd
  Reader.failIf (state ≠ event.isSome.toUInt8) (.integrity "history Request state")
  return ⟨queue, BitVec.ofNat 128 (Bytes.toNat request), bodyHash, event⟩

def decode (raw : Bytes) : Result RequestRecord := Reader.decode decodeFields raw

end RequestRecord
end Kilogram.History
