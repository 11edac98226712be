import Kilogram.Vault.Types

/-!
# Keyed addresses, digests and envelopes

BLAKE3 and XChaCha20-Poly1305 come from outside the repository and are parameters here. What the
vault builds from them (associated data, addresses, sealed envelopes) is modelled as written.
-/

namespace Kilogram
open Except (ok_iff okOr)

/-- The primitives the vault calls: BLAKE3, keyed BLAKE3 and an AEAD with key, nonce,
associated data and message. -/
class Primitives where
  hash : Bytes → Id
  keyedHash : Id → Bytes → Id
  encrypt : Id → Bytes → Bytes → Bytes → Option Bytes
  decrypt : Id → Bytes → Bytes → Bytes → Option Bytes

/-- Opening gives back what was sealed, and sealing adds the sixteen bytes of the tag. -/
structure Primitives.OpensWhatItSealed (P : Primitives) : Prop where
  length_encrypt : ∀ {key : Id} {nonce aad msg out : Bytes},
    P.encrypt key nonce aad msg = some out → out.length = msg.length + 16
  decrypt_encrypt : ∀ {key : Id} {nonce aad msg out : Bytes},
    P.encrypt key nonce aad msg = some out → P.decrypt key nonce aad out = some msg

/-- Primitives without secrecy that meet the assumptions: the cipher appends sixteen zero bytes, the
keyed hash adds up the scope and the entrance it is given. -/
@[reducible] def Primitives.plain : Primitives where
  hash bs := BitVec.ofNat 256 (Bytes.toNat bs)
  keyedHash _ bs := BitVec.ofNat 256 (Bytes.toNat (bs.drop 120) +
    Bytes.toNat ((bs.drop 118).take 2) + 512 * (bs.getD 47 0).toNat)
  encrypt _ _ _ msg := some (msg ++ List.replicate 16 0)
  decrypt _ _ _ raw := if raw.length < 16 then none else some (raw.take (raw.length - 16))

theorem Primitives.plain_opensWhatItSealed : Primitives.plain.OpensWhatItSealed where
  length_encrypt h := by
    cases h
    simp
  decrypt_encrypt {_ _ _ msg _} h := by
    cases h
    change (if (msg ++ List.replicate 16 0).length < 16 then none
      else some ((msg ++ List.replicate 16 0).take ((msg ++ List.replicate 16 0).length - 16))) = _
    simp

private theorem drop_parts (front back rest : Bytes) (b : UInt8) (hf : front.length = 47)
    (hb : back.length = 70) (m : Nat) :
    (front ++ (b :: (back ++ rest))).drop (118 + m) = rest.drop m := by
  rw [List.drop_append, hf, List.drop_of_length_le (by omega), List.nil_append,
    show 118 + m - 47 = (70 + m) + 1 by omega, List.drop_succ_cons, ← hb,
    List.drop_length_add_append]

theorem Primitives.plain_keyedHash (key : Id) {front back : Bytes} (scope : UInt8) (n : Nat) (p : Id)
    (hf : front.length = 47) (hb : back.length = 70) (hn : n < 65536) :
    Primitives.plain.keyedHash key (front ++ (scope :: (back ++ (Bytes.ofNat 2 n ++ p.bytes)))) =
      BitVec.ofNat 256 (p.toNat + n + 512 * scope.toNat) := by
  have hscope : (front ++ (scope :: (back ++ (Bytes.ofNat 2 n ++ p.bytes)))).getD 47 0 = scope := by
    rw [List.getD_eq_getElem?_getD, List.getElem?_append_right (by omega), hf]
    rfl
  have hp : p.toNat < 256 ^ 32 := by
    have := p.isLt
    norm_num at this ⊢
    exact this
  have h118 := drop_parts front back (Bytes.ofNat 2 n ++ p.bytes) scope hf hb 0
  have h120 := drop_parts front back (Bytes.ofNat 2 n ++ p.bytes) scope hf hb 2
  rw [List.drop_zero] at h118
  change BitVec.ofNat 256 (Bytes.toNat (List.drop (118 + 2) _) +
    Bytes.toNat ((List.drop (118 + 0) _).take 2) + 512 * UInt8.toNat (List.getD _ 47 0)) = _
  rw [h118, h120, hscope]
  rw [List.drop_left' (Bytes.length_ofNat 2 n), List.take_left' (Bytes.length_ofNat 2 n), Id.bytes,
    Bytes.toNat_ofNat_of_lt hp, Bytes.toNat_ofNat_of_lt hn]

/-- Twenty-four bytes of randomness. -/
structure Nonce where
  bytes : Bytes
  length_eq : bytes.length = 24

/-- A vault's derived keys and the identities its associated data names. -/
structure Crypto where
  (node value integrity lookup cursor incarnation : Id)
  contexts : Two Id
  account : Id

section Envelope
variable [P : Primitives]

/-- The random source fills the nonce or fails. -/
def sealEnvelope (key : Id) (nonce : Option Nonce) (aad plain : Bytes) : Result Bytes := do
  let nonce ← okOr nonce (.bound "secure random")
  let encrypted ← okOr (P.encrypt key nonce.bytes aad plain) (.integrity "encrypt")
  return 5 :: (nonce.bytes ++ encrypted)

def openEnvelope (key : Id) (aad raw : Bytes) (cap : Nat) : Result Bytes := do
  Except.failIf (raw.length < 41 ∨ raw.length > cap ∨ raw.head? ≠ some 5)
    (.integrity "envelope bound/version")
  okOr (P.decrypt key ((raw.drop 1).take 24) aad (raw.drop 25)) (.integrity "AEAD")

theorem length_of_sealEnvelope (hP : P.OpensWhatItSealed) {key : Id} {nonce : Option Nonce}
    {aad plain raw : Bytes} (h : sealEnvelope key nonce aad plain = .ok raw) :
    raw.length = plain.length + 41 := by
  simp only [sealEnvelope, ok_iff] at h
  obtain ⟨n, _, out, hout, rfl⟩ := h
  have hlen := hP.length_encrypt hout
  simp only [List.length_cons, List.length_append, n.length_eq, hlen]
  omega

theorem head_of_sealEnvelope {key : Id} {nonce : Option Nonce} {aad plain raw : Bytes}
    (h : sealEnvelope key nonce aad plain = .ok raw) : raw.head? = some 5 := by
  simp only [sealEnvelope, ok_iff] at h
  obtain ⟨n, _, out, _, rfl⟩ := h
  rfl

/-- An envelope within the cap opens to its plaintext. -/
theorem openEnvelope_of_sealEnvelope (hP : P.OpensWhatItSealed) {key : Id} {nonce : Option Nonce}
    {aad plain raw : Bytes} {cap : Nat} (h : sealEnvelope key nonce aad plain = .ok raw)
    (hcap : raw.length ≤ cap) : openEnvelope key aad raw cap = .ok plain := by
  have hlen := length_of_sealEnvelope hP h
  have hhead := head_of_sealEnvelope h
  simp only [sealEnvelope, ok_iff] at h
  obtain ⟨n, _, out, hout, rfl⟩ := h
  simp only [openEnvelope, ok_iff]
  refine ⟨(), ?_, ?_⟩
  · rintro (h1 | h1 | h1)
    · omega
    · omega
    · exact h1 hhead
  · have htake : ((5 :: (n.bytes ++ out)).drop 1).take 24 = n.bytes := by
      rw [List.drop_one, List.tail_cons, ← n.length_eq, List.take_left]
    have hdrop : (5 :: (n.bytes ++ out)).drop 25 = out := by
      rw [List.drop_succ_cons, ← n.length_eq, List.drop_left]
    rw [htake, hdrop]
    exact hP.decrypt_encrypt hout

end Envelope

namespace Crypto
variable [P : Primitives]

def aad (crypto : Crypto) (scope : UInt8) (kind : Bytes) (address : Id) : Bytes :=
  ascii "kilogram:a3:v5" ++ [0] ++ crypto.incarnation.bytes ++ [scope] ++
    (if scope < 48 then crypto.contexts.get (scope / 24) else crypto.account).bytes ++
    Bytes.ofNat 2 kind.length ++ kind ++ address.bytes

def address (crypto : Crypto) (scope : UInt8) (kind key : Bytes) : Id :=
  P.keyedHash crypto.lookup (crypto.aad scope kind 0 ++ key)

def hash (crypto : Crypto) (scope : UInt8) (kind bytes : Bytes) : Id :=
  P.keyedHash crypto.integrity (crypto.aad scope kind 0 ++ bytes)

def sealNode (crypto : Crypto) (nonce : Option Nonce) (scope : UInt8) (address : Id) (plain : Bytes) : Result Bytes :=
  sealEnvelope crypto.node nonce (crypto.aad scope (ascii "node") address) plain

def openNode (crypto : Crypto) (scope : UInt8) (address : Id) (raw : Bytes) : Result Bytes :=
  openEnvelope crypto.node (crypto.aad scope (ascii "node") address) raw nodeCap

end Crypto

/-- The scope stands behind the version and the incarnation of the associated data. -/
theorem Crypto.aad_node (crypto : Crypto) (scope : UInt8) (rest : Bytes) :
    ∃ front back : Bytes, front.length = 47 ∧ back.length = 70 ∧
      crypto.aad scope (ascii "node") 0 ++ rest = front ++ (scope :: (back ++ rest)) := by
  have hname : (ascii "node").length = 4 := by decide +kernel
  have hversion : (ascii "kilogram:a3:v5").length = 14 := by decide +kernel
  refine ⟨ascii "kilogram:a3:v5" ++ [0] ++ crypto.incarnation.bytes,
    (if scope < 48 then crypto.contexts.get (scope / 24) else crypto.account).bytes ++
      Bytes.ofNat 2 (ascii "node").length ++ ascii "node" ++ Id.bytes 0, ?_, ?_, ?_⟩
  · simp only [List.length_append, Id.length_bytes, hversion, List.length_singleton]
  · simp only [List.length_append, Id.length_bytes, hname, Bytes.length_ofNat]
  · simp only [Crypto.aad, List.append_assoc, List.cons_append, List.nil_append]

/-- All keys and identities zero. -/
def Crypto.blank : Crypto := ⟨0, 0, 0, 0, 0, 0, ⟨0, 0⟩, 0⟩

end Kilogram
