import Kilogram.Lib.Radix
import Kilogram.Vault.Crypto

/-!
# Nodes of the authenticated index

The nodes of the compressed binary radix tree, their canonical bytes and the summary that a
parent, or the root record, keeps of a node.
-/

namespace Kilogram.Index
open Except (okOr)

/-- Bit `pos` of a key, the most significant bit of its first byte being bit zero. -/
abbrev bit (key : Id) (pos : Nat) : Bool := key.getMsbD pos

/-- The key with every bit from `bits` on cleared. -/
abbrev prefixOf (key : Id) (bits : Nat) : Id := Radix.cut key bits

/-- The first bit at which two keys differ, or 256. -/
abbrev common (a b : Id) : Nat := Radix.agree a b

inductive Body where
  | leaf (hash : Id) (length charge reserved : UInt64) (owner : UInt8)
  | branch (left right : Summary)
  deriving DecidableEq

structure Node where
  pfx : Id
  bits : Nat
  body : Body
  deriving DecidableEq

def child (parent : Node) (right : Bool) : Id × Nat := Radix.child parent.pfx parent.bits right

namespace Node

def encode (n : Node) : Bytes := Bytes.ofNat 2 n.bits ++ (n.pfx.bytes ++ match n.body with
    | .leaf hash length charge reserved owner =>
      0 :: (hash.bytes ++ (u64Bytes length ++ (u64Bytes charge ++ (u64Bytes reserved ++ [owner]))))
    | .branch left right => 1 :: (left.encode ++ right.encode))

def decodeLeaf : Reader Body := do
  let hash ← Reader.id
  let length ← Reader.u64
  let charge ← Reader.u64
  let reserved ← Reader.u64
  let owner ← Reader.byte
  Reader.failIf (owner > 1 ∨ length.toNat > maxValue ∨
    charge.toNat ≠ length.toNat + 41 + 32 + 2 * nodeCap) (.integrity "leaf bounds")
  return .leaf hash length charge reserved owner

def decodeBranch : Reader Body := do
  let left ← Summary.decode
  let right ← Summary.decode
  Reader.failIf (left.count = 0 ∨ right.count = 0) (.integrity "empty branch")
  return .branch left right

def decode (raw : Bytes) : Result Node := Reader.decode (do
    let bits ← Reader.u16
    let p ← Reader.id
    Reader.failIf (bits > 256 ∨ prefixOf p bits ≠ p) (.integrity "node prefix")
    let kind ← Reader.byte
    let body ←
      if kind = 0 ∧ bits = 256 then decodeLeaf
      else if kind = 1 ∧ bits < 256 then decodeBranch
      else Reader.fail (.integrity "node kind")
    Reader.atEnd
    return ⟨p, bits, body⟩) raw

def summary [Primitives] (n : Node) (crypto : Crypto) (scope : UInt8) : Result Summary :=
  let digest := crypto.hash scope (ascii "node") n.encode
  match n.body with
  | .leaf _ _ charge reserved owner =>
    .ok { Summary.default with
      digest := digest, count := 1,
      used := Summary.default.used.set owner charge,
      reserved := Summary.default.reserved.set owner reserved }
  | .branch left right => do
    let count ← okOr (checkedAdd left.count right.count) (.bound "node count")
    let used0 ← okOr (checkedAdd left.used.zero right.used.zero) (.bound "used")
    let reserved0 ← okOr (checkedAdd left.reserved.zero right.reserved.zero) (.bound "reserved")
    let used1 ← okOr (checkedAdd left.used.one right.used.one) (.bound "used")
    let reserved1 ← okOr (checkedAdd left.reserved.one right.reserved.one) (.bound "reserved")
    return ⟨digest, count, ⟨used0, used1⟩, ⟨reserved0, reserved1⟩⟩

/-- What every node the index stores satisfies. -/
def Wf (n : Node) : Prop := prefixOf n.pfx n.bits = n.pfx ∧ match n.body with
    | .leaf _ length charge _ owner => n.bits = 256 ∧ owner ≤ 1 ∧ length.toNat ≤ maxValue ∧
        charge.toNat = length.toNat + 41 + 32 + 2 * nodeCap
    | .branch left right => n.bits < 256 ∧ left.count ≠ 0 ∧ right.count ≠ 0

theorem Wf.bits_le {n : Node} (h : n.Wf) : n.bits ≤ 256 := by
  obtain ⟨pfx, bits, body⟩ := n
  cases body with
  | leaf hash length charge reserved owner | branch left right => exact h.2.1.le

theorem decodeLeaf_eq_ok {raw rest : Bytes} {body : Body} : decodeLeaf raw = .ok (body, rest) ↔
    ∃ hash length charge reserved owner,
      hash.bytes ++ (u64Bytes length ++ (u64Bytes charge ++ (u64Bytes reserved ++ owner :: rest))) = raw ∧
      (owner ≤ 1 ∧ length.toNat ≤ maxValue ∧ charge.toNat = length.toNat + 41 + 32 + 2 * nodeCap) ∧
      .leaf hash length charge reserved owner = body := by
  simp only [decodeLeaf, Reader.ok_iff, existsAndEq, exists_const, not_or, not_not, Nat.not_lt, UInt8.not_lt,
    and_true, true_and]

theorem decodeBranch_eq_ok {raw rest : Bytes} {body : Body} : decodeBranch raw = .ok (body, rest) ↔
    ∃ left right, left.encode ++ (right.encode ++ rest) = raw ∧ (left.count ≠ 0 ∧ right.count ≠ 0) ∧
      .branch left right = body := by
  simp only [decodeBranch, Reader.ok_iff, Summary.decode_eq_ok, existsAndEq, exists_const, not_or, and_true,
    true_and, ne_eq]

/-- The decoder accepts exactly the canonical bytes of the nodes the index stores. -/
theorem decode_eq_ok {n : Node} {raw : Bytes} : decode raw = .ok n ↔ n.Wf ∧ n.encode = raw := by
  simp only [decode, Reader.decode_eq_ok, Reader.ok_iff, existsAndEq, exists_const, not_or, not_not, Nat.not_lt,
    and_true, true_and]
  constructor
  · rintro ⟨rest, bits, p, kind, mid, ⟨-, rfl⟩, ⟨-, hcut⟩, h⟩
    split_ifs at h with hleaf hbranch
    · simp only [Reader.ok_iff, decodeLeaf_eq_ok, existsAndEq, exists_const, and_true, true_and] at h
      obtain ⟨hash, length, charge, reserved, owner, ⟨rfl, hok⟩, rfl, -⟩ := h
      exact ⟨⟨hcut, hleaf.2, hok⟩, by rw [hleaf.1]; rfl⟩
    · simp only [Reader.ok_iff, decodeBranch_eq_ok, existsAndEq, exists_const, and_true, true_and] at h
      obtain ⟨left, right, ⟨rfl, hok⟩, rfl, -⟩ := h
      exact ⟨⟨hcut, hbranch.2, hok⟩, by rw [hbranch.1, List.append_nil]; rfl⟩
    · simp only [Reader.ok_iff, false_and, exists_false] at h
  · rintro ⟨h, rfl⟩
    have hbits := h.bits_le
    have hwidth : n.bits < 65536 := Nat.lt_of_le_of_lt hbits (by norm_num)
    obtain ⟨p, bits, body⟩ := n
    cases body with
    | leaf hash length charge reserved owner =>
      refine ⟨[], bits, p, 0, _, ⟨hwidth, rfl⟩, ⟨hbits, h.1⟩, ?_⟩
      rw [if_pos (And.intro rfl h.2.1)]
      simp only [Reader.ok_iff, decodeLeaf_eq_ok]
      exact ⟨_, [], ⟨_, _, _, _, _, rfl, h.2.2, rfl⟩, (), [], ⟨rfl, rfl⟩, rfl, rfl⟩
    | branch left right =>
      refine ⟨[], bits, p, 1, _, ⟨hwidth, rfl⟩, ⟨hbits, h.1⟩, ?_⟩
      rw [if_neg fun h => absurd h.1 (by decide), if_pos (And.intro rfl h.2.1)]
      simp only [Reader.ok_iff, decodeBranch_eq_ok]
      exact ⟨_, [], ⟨_, _, by rw [List.append_nil], h.2.2, rfl⟩, (), [], ⟨rfl, rfl⟩, rfl, rfl⟩

theorem decode_encode {n : Node} (h : n.Wf) : decode n.encode = .ok n := decode_eq_ok.mpr ⟨h, rfl⟩
theorem wf_of_decode {raw : Bytes} {n : Node} (h : decode raw = .ok n) : n.Wf := (decode_eq_ok.mp h).1

theorem length_encode_le (n : Node) : n.encode.length + 41 ≤ nodeCap := by
  obtain ⟨pfx, bits, body⟩ := n
  cases body <;> simp [encode, nodeCap]

end Node

/-- What a leaf records of a value, within the bounds its writers keep. -/
structure Payload where
  hash : Id
  (length reserved : UInt64)
  owner : UInt8
  length_le : length.toNat ≤ maxValue
  owner_le : owner ≤ 1

def leaf (key hash : Id) (length : UInt64) (owner : UInt8) (reserved : UInt64) : Node :=
  ⟨key, 256, .leaf hash length (length + 41 + 32 + UInt64.ofNat (2 * nodeCap)) reserved owner⟩

/-- The charge of a leaf: envelope, key and two nodes on top of the value. -/
def Payload.charge (v : Payload) : Nat := v.length.toNat + 41 + 32 + 2 * nodeCap
def Payload.node (v : Payload) (key : Id) : Node := leaf key v.hash v.length v.owner v.reserved

theorem Payload.body_node (v : Payload) (key : Id) : (v.node key).body =
    .leaf v.hash v.length (v.length + 41 + 32 + UInt64.ofNat (2 * nodeCap)) v.reserved v.owner := rfl

theorem Payload.toNat_charge (v : Payload) : (v.length + 41 + 32 + UInt64.ofNat (2 * nodeCap)).toNat = v.charge := by
  have h := v.length_le
  have hcap : UInt64.ofNat (2 * nodeCap) = 512 := rfl
  simp only [maxValue] at h
  rw [hcap]
  simp only [UInt64.toNat_add, UInt64.reduceToNat, Payload.charge, nodeCap]
  omega

theorem Payload.wf_node (v : Payload) (key : Id) : (v.node key).Wf :=
  ⟨Radix.cut_full key 256 (le_refl 256), rfl, v.owner_le, v.length_le, v.toNat_charge⟩

end Kilogram.Index
