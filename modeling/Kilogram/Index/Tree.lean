import Kilogram.Index.Node
import Kilogram.Lib.Maps

/-!
# The operation overlay of the authenticated index

`Tree` is the overlay one operation works on: the node table it reads, the changes it plans and the
nodes it has already verified. The counter of table reads is left out: it is reported, never read.
-/

namespace Kilogram.Index
open Except (failIf okOr)

/-- Sizes the compiler chooses. No result depends on them. -/
structure Layout where
  /-- `size_of::<(Id, Node, Summary)>() + 64` -/
  decodedEntry : Nat
  /-- `3 * (size_of::<(Id, (u8, Node, Summary))>() + 128)` -/
  reusedEntry : Nat
  /-- capacity of the queue of reused addresses at a length -/
  fifoCapacity : Nat → Nat

structure Tree where
  table : Std.TreeMap Id Bytes
  crypto : Crypto
  layout : Layout
  changed : Std.TreeMap Id (Option Bytes)
  decoded : Std.TreeMap Id (Node × Summary)
  readReuse : Bool
  reused : Std.TreeMap Id (UInt8 × Node × Summary)
  reuseFifo : List Id
  pendingScopes : Std.TreeMap Id UInt8
  planBytes : Nat

/-- The table key of the node entered at an entrance. -/
def nodeAddress [Primitives] (crypto : Crypto) (scope : UInt8) (entrance : Id × Nat) : Id :=
  crypto.address scope (ascii "node") (Bytes.ofNat 2 entrance.2 ++ entrance.1.bytes)

def sizeAdd (a b : Nat) : Option Nat := if a + b < 2 ^ 64 then some (a + b) else none

namespace Tree

def new (table : Std.TreeMap Id Bytes) (crypto : Crypto) (layout : Layout) : Tree :=
  { table, crypto, layout, changed := ∅, decoded := ∅, readReuse := false, reused := ∅,
    reuseFifo := [], pendingScopes := ∅, planBytes := 0 }

def clearReadProofs (tr : Tree) : Tree :=
  { tr with decoded := tr.decoded.filter fun address _ => tr.pendingScopes.contains address }

def enableReadReuse (tr : Tree) : Tree := { tr with readReuse := true }

def reuseBoundBytes (tr : Tree) : Nat :=
  (tr.reused.size + 11) * tr.layout.reusedEntry + tr.layout.fifoCapacity tr.reuseFifo.length * 32

/-- Evict from the front of the queue until the bounds hold or the queue is empty. -/
def evict (tr : Tree) : List Id → Tree
  | [] => { tr with reuseFifo := [] }
  | old :: rest =>
    let tr := { tr with reuseFifo := old :: rest }
    if tr.reused.size ≥ 512 ∨ tr.reuseBoundBytes + 4096 > 1024 * 1024 then
      evict { tr with reused := tr.reused.erase old } rest
    else tr

def reuse (tr : Tree) (address : Id) (scope : UInt8) (node : Node) (summary : Summary) : Tree :=
  if !tr.readReuse || tr.reused.contains address then tr
  else
    let tr := tr.evict tr.reuseFifo
    { tr with
      reused := tr.reused.insert address (scope, node, summary)
      reuseFifo := tr.reuseFifo ++ [address] }

def remember (tr : Tree) (address : Id) (node : Node) (summary : Summary) : Result Tree := do
  failIf (¬ tr.decoded.contains address ∧
      (tr.decoded.size + 1) * tr.layout.decodedEntry > maxPlan) (.bound "operation proof cache")
  return { tr with decoded := tr.decoded.insert address (node, summary) }

section
variable [Primitives]

def address (tr : Tree) (scope : UInt8) (p : Id) (bits : Nat) : Id := nodeAddress tr.crypto scope (p, bits)

/-- The envelope bytes of a node that no proof of this operation covers yet. -/
def rawAt (tr : Tree) (address : Id) : Result Bytes :=
  match tr.changed[address]? with
  | some planned => okOr planned (.integrity "removed expected node")
  | none => do
    let raw ← okOr tr.table[address]? (.integrity "missing expected node")
    failIf (raw.length > nodeCap) (.integrity "node envelope cap")
    return raw

def load (tr : Tree) (scope : UInt8) (entrance : Id × Nat) (expected : Summary) : Result (Node × Tree) := do
  failIf (expected.count = 0) (.integrity "empty expected node")
  let address := tr.address scope entrance.1 entrance.2
  match tr.decoded[address]? with
  | some (node, summary) =>
    failIf (summary ≠ expected) (.integrity "cached node proof")
    return (node, tr)
  | none =>
  match tr.reused[address]? with
  | some (provedScope, node, summary) =>
    failIf (provedScope ≠ scope ∨ summary ≠ expected) (.integrity "reused node proof/scope")
    let tr ← tr.remember address node summary
    return (node, tr)
  | none =>
    let raw ← tr.rawAt address
    let plain ← tr.crypto.openNode scope address raw
    let n ← Node.decode plain
    failIf (n.bits < entrance.2 ∨ prefixOf n.pfx entrance.2 ≠ entrance.1) (.integrity "node proof")
    let summary ← n.summary tr.crypto scope
    failIf (summary ≠ expected) (.integrity "node proof")
    let tr ← tr.remember address n expected
    return (n, tr.reuse address scope n expected)

/-- Plan bytes once the entry of `address` is taken out of the plan. -/
def planWithout (tr : Tree) (address : Id) : Result Nat :=
  match tr.changed[address]? with
  | none => okOr (sizeAdd tr.planBytes ((tr.table[address]?.map List.length).getD 0 + 32))
      (.bound "plan")
  | some (some old) => .ok (tr.planBytes - old.length)
  | some none => .ok tr.planBytes

def change (tr : Tree) (address : Id) (value : Option Bytes) : Result Tree := do
  let rest ← tr.planWithout address
  let planBytes ← okOr (sizeAdd rest ((value.map List.length).getD 0)) (.bound "plan")
  failIf (planBytes > maxPlan) (.bound "node plan")
  return { tr with
    readReuse := false, reused := ∅, reuseFifo := []
    pendingScopes := tr.pendingScopes.erase address
    decoded := tr.decoded.erase address
    planBytes
    changed := tr.changed.insert address value }

def store (tr : Tree) (scope : UInt8) (entrance : Id × Nat) (node : Node) : Result (Summary × Tree) := do
  let summary ← node.summary tr.crypto scope
  let address := tr.address scope entrance.1 entrance.2
  let envelopeLen := node.encode.length + 41
  failIf (envelopeLen > nodeCap) (.bound "node envelope")
  let tr ← tr.change address (some (List.replicate envelopeLen 0))
  let tr ← { tr with pendingScopes := tr.pendingScopes.insert address scope }.remember address node
    summary
  return (summary, tr)

/-- Seal one pending node into its reserved place. -/
def sealChange (nonces : Id → Option Nonce) (tr : Tree) (pending : Id × UInt8) : Result Tree := do
  let (node, _) ← okOr tr.decoded[pending.1]? (.integrity "pending node missing")
  let raw ← tr.crypto.sealNode (nonces pending.1) pending.2 pending.1 node.encode
  let slot ← okOr tr.changed[pending.1]? (.integrity "pending node change missing")
  failIf (slot.map List.length ≠ some raw.length ∨ raw.length > nodeCap) (.integrity "pending node envelope bound")
  return { tr with changed := tr.changed.insert pending.1 (some raw) }

def sealChanges (tr : Tree) (nonces : Id → Option Nonce) : Result Tree :=
  tr.pendingScopes.toList.foldlM (sealChange nonces) tr

/-- What the commit writes into the node table: every planned change in turn. -/
def publish (tr : Tree) : Std.TreeMap Id Bytes := tr.changed.toList.foldl Maps.write tr.table

/-- The descent of `find`. A verified node is never shallower than its entrance, so the descent
ends within 257 nodes. -/
def findInner (tr : Tree) (scope : UInt8) (key : Id) : Nat → Id × Nat → Summary → Result (Option Node × Tree)
  | 0, _, _ => .error (.integrity "tree depth")
  | fuel + 1, entrance, expected =>
    if expected.count = 0 then do
      failIf (expected ≠ Summary.default) (.integrity "noncanonical empty root")
      return (none, tr)
    else do
      let (n, tr) ← tr.load scope entrance expected
      if prefixOf key n.bits ≠ n.pfx then return (none, tr)
      else
        match n.body with
        | .leaf .. => return (some n, tr)
        | .branch left right =>
          let b := bit key n.bits
          findInner tr scope key fuel (child n b) (if b then right else left)

def find (tr : Tree) (scope : UInt8) (root : Summary) (key : Id) : Result (Option Node × Tree) :=
  tr.findInner scope key 258 (0, 0) root

/-- Split the edge above `old` at bit `pos` and hang the new leaf beside it. -/
def split (tr : Tree) (scope : UInt8) (ent : Id × Nat) (old leaf : Node) (pos : Nat) : Result (Summary × Tree) := do
  let parent : Node := ⟨prefixOf leaf.pfx pos, pos, .branch Summary.default Summary.default⟩
  let newRight := bit leaf.pfx pos
  let (a, tr) ← tr.store scope (child parent !newRight) old
  let (b, tr) ← tr.store scope (child parent newRight) leaf
  tr.store scope ent
    { parent with body := .branch (if newRight then a else b) (if newRight then b else a) }

def insert (scope : UInt8) (leaf : Node) : Nat → Tree → Id × Nat → Summary → Result (Summary × Tree)
  | 0, _, _, _ => .error (.integrity "tree depth")
  | fuel + 1, tr, ent, summary =>
    if summary.count = 0 then tr.store scope ent leaf
    else do
      let (old, tr) ← tr.load scope ent summary
      let shared := min (common old.pfx leaf.pfx) old.bits
      if shared < old.bits then tr.split scope ent old leaf shared
      else if old.bits = 256 then tr.store scope ent leaf
      else
        match old.body with
        | .leaf .. => .error (.integrity "branch")
        | .branch left right => do
          let b := bit leaf.pfx old.bits
          let (next, tr) ← insert scope leaf fuel tr (child old b) (if b then right else left)
          tr.store scope ent
            { old with
              body := .branch (if b then left else next) (if b then next else right) }

def put (tr : Tree) (scope : UInt8) (root : Summary) (leaf : Node) : Result (Summary × Tree) :=
  insert scope leaf 257 tr (0, 0) root

def delete (scope : UInt8) (key : Id) : Nat → Tree → Id × Nat → Summary → Result (Summary × Tree)
  | 0, _, _, _ => .error (.integrity "tree depth")
  | fuel + 1, tr, ent, summary => do
    let (n, tr) ← tr.load scope ent summary
    failIf (prefixOf key n.bits ≠ n.pfx) (.integrity "retire missing leaf")
    if n.bits = 256 then
      let tr ← tr.change (tr.address scope ent.1 ent.2) none
      return (Summary.default, tr)
    else
      match n.body with
      | .leaf .. => .error (.integrity "delete branch")
      | .branch left right => do
        let b := bit key n.bits
        let (changed, tr) ← delete scope key fuel tr (child n b) (if b then right else left)
        if changed.count = 0 then
          let survivorEnt := child n !b
          let (promoted, tr) ← tr.load scope survivorEnt (if b then left else right)
          let tr ← tr.change (tr.address scope survivorEnt.1 survivorEnt.2) none
          tr.store scope ent promoted
        else
          tr.store scope ent
            { n with
              body := .branch (if b then left else changed) (if b then changed else right) }

def remove (tr : Tree) (scope : UInt8) (root : Summary) (key : Id) : Result (Summary × Tree) :=
  delete scope key 257 tr (0, 0) root

end
end Tree
end Kilogram.Index
