import Kilogram.History.Types
import Kilogram.Lib.Cbor

/-!
# The reader of wire records

Records arrive as canonical CBOR made of unsigned integers, byte strings and arrays only. A first pass
checks the form, depth and size of the whole record, a second pass builds its nodes; the fields are then
read by number.
-/

namespace Kilogram.Wire
open Kilogram History
open Except (failIf)

/-- A node with the span of bytes it was read from. -/
inductive Node where
  | uint (n : UInt64) (start stop : Nat)
  | bytes (b : Bytes) (start stop : Nat)
  | list (items : List Node) (start stop : Nat)

namespace Node

def start : Node → Nat
  | uint _ s _ | bytes _ s _ | list _ s _ => s

def stop : Node → Nat
  | uint _ _ e | bytes _ _ e | list _ _ e => e

def asList : Node → Result (List Node)
  | list items _ _ => return items
  | _ => throw (.integrity "wire2 array")

def fields (v : Node) (n : Nat) : Result (Fin n → Node) := do
  let items ← v.asList
  if h : items.length = n then return fun i => items.get (i.cast h.symm)
  else throw (.integrity "wire2 arity")

def asUint : Node → Result UInt64
  | uint n _ _ => return n
  | _ => throw (.integrity "wire2 uint")

def asBytes : Node → Result Bytes
  | bytes b _ _ => return b
  | _ => throw (.integrity "wire2 bstr")

def fixed (v : Node) (width : Nat) : Result Bytes := do
  let b ← v.asBytes
  failIf (b.length ≠ width) (.integrity "wire2 width")
  return b

def id (v : Node) : Result Id := do
  let b ← v.fixed 32
  return Id.ofBytes b

def request (v : Node) : Result RequestId := do
  let b ← v.fixed 16
  return BitVec.ofNat 128 (Bytes.toNat b)

def optional (v : Node) : Result (Option Node) := do
  match ← v.asList with
  | [] => return none
  | [x] => return some x
  | _ => throw (.integrity "wire2 option")

def idOpt (v : Node) : Result (Option Id) := do
  match ← v.optional with
  | none => return none
  | some x => do
    let i ← x.id
    return some i

def sid (v : Node) : Result Bytes := do
  let b ← v.asBytes
  failIf (b.length ≠ 43 ∨ b.any (· ≥ 128)) (.integrity "wire2 SID")
  return b

end Node

/-- The rest of the record, the position in it and the number of items read. -/
structure Cursor where
  rest : Bytes
  (pos items : Nat)

namespace Cursor

def take (c : Cursor) (n : Nat) : Result (Bytes × Cursor) := do
  failIf (2 ^ 64 ≤ c.pos + n) (.bound "wire2 length")
  failIf (c.rest.length < n) (.integrity "wire2 truncated")
  return (c.rest.take n, { c with rest := c.rest.drop n, pos := c.pos + n })

def fault : Cbor.Fault → Error
  | .truncated => .integrity "wire2 truncated"
  | .indefinite => .integrity "wire2 indefinite/head"
  | .noncanonical => .integrity "wire2 noncanonical"

def head (c : Cursor) : Result (Cbor.Head × Cursor) :=
  match Cbor.readHead c.rest with
  | .error e => .error (fault e)
  | .ok (h, rest) => .ok (h, { c with rest, pos := c.pos + (c.rest.length - rest.length) })

def repeated (f : Cursor → Result Cursor) : Nat → Cursor → Result Cursor
  | 0, c => return c
  | n + 1, c => do
    let c ← f c
    repeated f n c

/-- The first pass, with the depth that is left: nine levels at the top. -/
def scan : Nat → Cursor → Result Cursor
  | 0, _ => throw (.bound "wire2 depth/items")
  | depth + 1, c => do
    failIf (c.items + 1 > 8192) (.bound "wire2 depth/items")
    let (h, c) ← head { c with items := c.items + 1 }
    if h.major = 0 then return c
    else if h.major = 2 then do
      let (_, c) ← c.take h.argument
      return c
    else if h.major = 4 then do
      failIf (h.argument > 8192) (.bound "wire2 count")
      repeated (scan depth) h.argument c
    else throw (.integrity "wire2 profile")

def gather (f : Cursor → Result (Node × Cursor)) : Nat → Cursor → Result (List Node × Cursor)
  | 0, c => return ([], c)
  | n + 1, c => do
    let (v, c) ← f c
    let (vs, c) ← gather f n c
    return (v :: vs, c)

/-- The second pass. The source bounds its depth by the first pass, which ran before; `node_of_scan`
shows that the same number of levels is enough here. -/
def node : Nat → Cursor → Result (Node × Cursor)
  | 0, _ => throw (.bound "wire2 depth/items")
  | depth + 1, c => do
    let (h, d) ← c.head
    if h.major = 0 then return (.uint (UInt64.ofNat h.argument) c.pos d.pos, d)
    else if h.major = 2 then do
      let (b, d) ← d.take h.argument
      return (.bytes b c.pos d.pos, d)
    else if h.major = 4 then do
      let (items, d) ← gather (node depth) h.argument d
      return (.list items c.pos d.pos, d)
    else throw (.integrity "wire2 profile")

end Cursor

def read (raw : Bytes) (cap : Nat) : Result Node := do
  failIf (raw = [] ∨ raw.length > cap) (.bound "wire2 cap")
  let c ← Cursor.scan 9 ⟨raw, 0, 0⟩
  failIf (c.rest ≠ []) (.integrity "wire2 trailing")
  let (v, _) ← Cursor.node 9 ⟨raw, 0, c.items⟩
  return v

/-- Stop unless the field is as required. -/
def yes (ok : Prop) [Decidable ok] (why : String) : Result Unit := failIf (¬ ok) (.integrity why)

structure Tail where
  g : UInt64
  key : Id
  index : UInt64
  last : Id
  deriving DecidableEq

structure EventFields where
  scope : Scope
  q : Id
  role : UInt8
  n : UInt64
  previous : Option Id
  sequence : UInt64
  kind : UInt8
  request : RequestId
  parents : List Id
  (g index : UInt64)
  key : Id
  parent : Option Id
  tail : Option Tail
  (author id : Id)
  (coreOffset coreLen : UInt16)

def readTail (v : Node) : Result (Option Tail) := do
  match ← v.optional with
  | none => return none
  | some t => do
    let t ← t.fields 4
    let g ← (t 0).asUint
    let key ← (t 1).id
    let index ← (t 2).asUint
    let last ← (t 3).id
    return some ⟨g, key, index, last⟩

def asU16 (n : Nat) (e : Error) : Result UInt16 := do
  failIf (n ≥ 65536) e
  return UInt16.ofNat n

def readScope (context dialog epoch sid : Node) : Result Scope := do
  let context ← context.id
  let dialog ← dialog.id
  let epoch ← epoch.id
  let sid ← sid.sid
  return ⟨context, dialog, epoch, sid⟩

def increasing : List Id → Bool
  | x :: y :: rest => x < y && increasing (y :: rest)
  | _ => true

section
variable [Primitives]

def readEvent2 (raw : Bytes) : Result EventFields := do
  let v ← read raw (16 * 1024)
  let f ← v.fields 5
  let version ← (f 0).asUint
  yes (version = 2) "Event2 version"
  let c ← (f 1).fields 15
  yes ((f 1).stop - (f 1).start ≤ 2048) "Core2 cap"
  let h ← (f 2).fields 3
  let _ ← (f 4).fixed 64
  let coreVersion ← (c 0).asUint
  yes (coreVersion = 2) "Core/header fields"
  let role ← (c 5).asUint
  yes (role ≤ 1) "Core/header fields"
  let kind ← (c 9).asUint
  yes (1 ≤ kind ∧ kind ≤ 3) "Core/header fields"
  let nativeKind ← (h 0).asUint
  yes (nativeKind ≤ 1) "Core/header fields"
  let olm ← (f 3).asBytes
  yes (olm ≠ [] ∧ olm.length ≤ 12 * 1024) "Olm cap"
  let n ← (c 6).asUint
  let previous ← (c 7).idOpt
  let parentNodes ← (c 11).asList
  let parents ← parentNodes.mapM Node.id
  yes (parents.length ≤ 2 ∧ increasing parents) "parents"
  yes (if n = 0 then kind = role + 1 ∧ previous = none ∧ parents = []
    else kind = 3 ∧ previous ≠ none) "genesis shape"
  yes (n ≤ 1 ∨ previous.any (· ∈ parents)) "previous user parent"
  let ex ← (c 12).fields 4
  let index ← (h 2).asUint
  let exIndex ← (ex 1).asUint
  yes (exIndex = index) "outer header"
  yes (kind = 1 ↔ nativeKind = 0) "outer header"
  let tail ← readTail (ex 3)
  let scope ← readScope (c 1) (c 2) (c 3) (c 4)
  let q ← (c 14).id
  let sequence ← (c 8).asUint
  let request ← (c 10).request
  let g ← (ex 0).asUint
  let key ← (h 1).id
  let parent ← (ex 2).idOpt
  let author ← (c 13).id
  let coreOffset ← asU16 (f 1).start (.bound "Core offset")
  let coreLen ← asU16 ((f 1).stop - (f 1).start) (.bound "Core length")
  return {
    scope, q, role := role.toUInt8, n, previous, sequence, kind := kind.toUInt8, request, parents,
    g, index, key, parent, tail, author,
    id := hashParts (ascii "kg:od2:event-id\x00") [raw], coreOffset, coreLen }

structure ReceiptFields where
  scope : Scope
  q : Id
  (format role : UInt8)
  n : UInt64
  (event cert auth : Id)

def readReceipt2 (raw : Bytes) : Result ReceiptFields := do
  let v ← read raw 1024
  let f ← v.fields 2
  let t ← (f 0).fields 12
  let _ ← (f 1).fixed 64
  let version ← (t 0).asUint
  yes (version = 2) "receipt fields"
  let format ← (t 6).asUint
  yes (1 ≤ format ∧ format ≤ 2) "receipt fields"
  let role ← (t 7).asUint
  yes (role ≤ 1) "receipt fields"
  let n ← (t 8).asUint
  yes (n > 0) "receipt fields"
  let scope ← readScope (t 1) (t 2) (t 3) (t 4)
  let q ← (t 5).id
  let event ← (t 9).id
  let cert ← (t 10).id
  let auth ← (t 11).id
  return { scope, q, format := format.toUInt8, role := role.toUInt8, n, event, cert, auth }

structure AuthFields where
  (id cert : Id)

def readAuthBundle (raw : Bytes) : Result AuthFields := do
  let v ← read raw (16 * 1024)
  let f ← v.fields 3
  let version ← (f 0).asUint
  yes (version = 1) "bundle version"
  let _ ← (f 2).asBytes
  let cert ← (f 1).asBytes
  return ⟨hashParts [] [raw], hashParts [] [cert]⟩

structure FreshFields where
  c : Id
  certs : Two Id
  (q d e offer grant : Id)

def pushBytes (raw : Bytes) : Bytes :=
  if raw.length ≤ 23 then UInt8.ofNat (0x40 ||| raw.length) :: raw
  else if raw.length ≤ 255 then 0x58 :: UInt8.ofNat raw.length :: raw
  else 0x59 :: (Bytes.ofNat 2 raw.length ++ raw)

/-- The consent inside a proof: its two certificates. -/
def readConsent (c : Id) (raw : Bytes) : Result (Two Id) := do
  let consent ← read raw 4096
  let cf ← consent.fields 3
  let _ ← (cf 1).fixed 64
  let _ ← (cf 2).fixed 64
  let cb ← (cf 0).fields 10
  let version ← (cb 0).asUint
  yes (version = 2) "fresh consent fields"
  let context ← (cb 1).id
  yes (context = c) "fresh consent fields"
  let a ← (cb 4).asUint
  yes (a = 1) "fresh consent fields"
  let b ← (cb 5).asUint
  yes (b = 2) "fresh consent fields"
  let mode ← (cb 6).fields 1
  let m ← (mode 0).asUint
  yes (m = 0) "fresh consent fields"
  let s ← (cb 7).asUint
  yes (s = 1) "fresh consent fields"
  let notBefore ← (cb 8).asUint
  let expires ← (cb 9).asUint
  yes (notBefore < expires) "fresh consent fields"
  let cert0 ← (cb 2).id
  let cert1 ← (cb 3).id
  return ⟨cert0, cert1⟩

def readFreshBinding2 (raw : Bytes) : Result FreshFields := do
  let v ← read raw (16 * 1024)
  let f ← v.fields 6
  let version ← (f 0).asUint
  yes (version = 2) "fresh proof tag"
  let tag ← (f 1).asUint
  yes (tag = 0) "fresh proof tag"
  let c ← (f 2).id
  let consentRaw ← (f 3).asBytes
  let certs ← readConsent c consentRaw
  let offerRaw ← (f 4).asBytes
  let grantRaw ← (f 5).asBytes
  let offer ← read offerRaw (32 * 1024)
  let grant ← read grantRaw (32 * 1024)
  let of ← offer.fields 4
  let gf ← grant.fields 4
  let _ ← (of 3).fixed 64
  let _ ← (gf 3).fixed 64
  let o0 ← (of 0).asUint
  yes (o0 = 2) "selected Control kinds"
  let o1 ← (of 1).asUint
  yes (o1 = 1) "selected Control kinds"
  let g0 ← (gf 0).asUint
  yes (g0 = 2) "selected Control kinds"
  let g1 ← (gf 1).asUint
  yes (g1 = 2) "selected Control kinds"
  let oa ← (of 2).fields 8
  let gb ← (gf 2).fields 8
  let oaIds ← [oa 0, oa 1, oa 2, oa 3, oa 4, oa 5].mapM Node.id
  let gbIds ← [gb 0, gb 1, gb 2, gb 3, gb 4, gb 5].mapM Node.id
  let oid := hashParts (ascii "kg:od2:control-id\x00") [offerRaw]
  let gid := hashParts (ascii "kg:od2:control-id\x00") [grantRaw]
  yes (oaIds.take 3 = [c, certs.zero, certs.one] ∧ gbIds.take 2 = [c, oid] ∧ oaIds[3]? = gbIds[2]?) "selected binding"
  let s0 ← (oa 6).asUint
  yes (s0 = 1) "selected binding"
  let s1 ← (oa 7).asUint
  yes (s1 = 2) "selected binding"
  let s2 ← (gb 6).asUint
  yes (s2 = 1) "selected binding"
  let s3 ← (gb 7).asUint
  yes (s3 = 2) "selected binding"
  let e := hashParts (ascii "kg:od2:epoch\x00") [[0x86, 2] ++
    [c.bytes, certs.zero.bytes, certs.one.bytes, offerRaw, grantRaw].flatMap pushBytes]
  let d := hashParts (ascii "kg:od2:domain\x00") [[0x87, 2, 1, 2] ++
    [c.bytes, certs.zero.bytes, certs.one.bytes, e.bytes].flatMap pushBytes]
  return {
    c, certs, q := hashParts (ascii "kg:od2:mode-certificate\x00") [raw], d, e, offer := oid,
    grant := gid }

end
end Kilogram.Wire
