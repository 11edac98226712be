import Kilogram.Lib.Weight
import Kilogram.Vault.Types

/-!
# Mailbox capabilities and receipts

A mailbox is addressed by two public keys: whoever holds the first reads, whoever holds the second
writes. A digest is kept as what it is taken of; keys, signatures and identifiers are bytes.
-/

namespace Kilogram.Mailbox
open Except (ok_iff failIf bind_eq_ok pure_eq_ok)

def version : UInt8 := 1

def minMailboxTtlSeconds : Nat := 60
def maxMailboxTtlSeconds : Nat := 7 * 24 * 60 * 60
def maxMailboxEnvelopeBytes : Nat := 1024 * 1024
def maxMailboxPageItems : Nat := 8

inductive MailboxError where
  | encoding
  | invalid (why : String)
  | invalidPublicKey (kind : String)
  | invalidSignature
  | authorizationFailed
  | capabilityMismatch
  deriving DecidableEq

abbrev Checked := Except MailboxError

/-- The failure of a whole operation: a reason of its own, or that of a check with what was tried. -/
inductive Failure where
  | failed (why : String)
  | mailbox (context : Option String) (source : MailboxError)
  deriving DecidableEq

abbrev Result := Except Failure

def Checked.context {α : Type} (x : Checked α) (context : Option String) : Result α := x.mapError (.mailbox context)

abbrev ensure (c : Prop) [Decidable c] (why : String) : Result Unit := Except.ensure c (.failed why)

/-- A transaction that fails leaves no trace. -/
def commit {σ α : Type} (body : σ → Result (α × σ)) (t : σ) : Result α × σ :=
  match body t with
  | .ok (a, t') => (.ok a, t')
  | .error e => (.error e, t)

variable {α σ : Type} {body : σ → Result (α × σ)}

@[simp] theorem Checked.context_eq_ok {x : Checked α} {context : Option String} {a : α} :
    x.context context = .ok a ↔ x = .ok a := by
  cases x with
  | ok b | error e => simp [Checked.context, Except.mapError]

theorem validated_eq_ok {v : Result Unit} {r r' : α} : (v >>= fun _ => pure r) = .ok r' ↔ v = .ok () ∧ r' = r := by
  rw [bind_eq_ok]
  constructor
  · rintro ⟨_, hvalid, hr⟩
    exact ⟨hvalid, (pure_eq_ok.mp hr).symm⟩
  · rintro ⟨hvalid, rfl⟩
    exact ⟨(), hvalid, rfl⟩

def answered {σ α β : Type} (f : α → β) (x : Result (α × σ)) : Result (β × σ) := x.map (Prod.map f id)

theorem answered_eq_ok {β : Type} {f : α → β} {x : Result (α × σ)} {b : β} {t : σ} :
    answered f x = .ok (b, t) ↔ ∃ a, x = .ok (a, t) ∧ f a = b := by
  unfold answered
  rw [Except.map_eq_ok]
  constructor
  · rintro ⟨⟨a, u⟩, hx, heq⟩
    cases heq
    exact ⟨a, hx, rfl⟩
  · rintro ⟨a, hx, rfl⟩
    exact ⟨(a, t), hx, rfl⟩

def hasExpired {α : Type} (decoded : Result α) (expires : α → Nat) (now : Nat) : Result Bool := do
  let r ← decoded
  return decide (expires r ≤ now)

theorem hasExpired_eq_ok {v : Result Unit} {r : α} {expires : α → Nat} {now : Nat}
    {gone : Bool} : hasExpired (v >>= fun _ => pure r) expires now = .ok gone ↔
      v = .ok () ∧ (gone = true ↔ expires r ≤ now) := by
  unfold hasExpired
  simp only [ok_iff]
  constructor
  · rintro ⟨_, ⟨_, hvalid, rfl⟩, rfl⟩
    exact ⟨hvalid, decide_eq_true_iff⟩
  · rintro ⟨hvalid, hgone⟩
    exact ⟨r, ⟨(), hvalid, rfl⟩, by simp [← hgone]⟩

theorem commit_cases (body : σ → Result (α × σ)) (t : σ) :
    (∃ a t', body t = .ok (a, t') ∧ commit body t = (.ok a, t')) ∨
      ∃ e, body t = .error e ∧ commit body t = (.error e, t) := by
  unfold commit
  cases hbody : body t with
  | ok r => exact Or.inl ⟨r.1, r.2, rfl, rfl⟩
  | error e => exact Or.inr ⟨e, rfl, rfl⟩

/-- What holds before and after every body that succeeds holds after the commit. -/
theorem commit_induction {t : σ} (Q : σ → Prop)
    (hok : ∀ a t', body t = .ok (a, t') → Q t') (hsame : Q t) : Q (commit body t).2 := by
  rcases commit_cases body t with ⟨a, t', hbody, hcommit⟩ | ⟨e, _, hcommit⟩
  · rw [hcommit]
    exact hok a t' hbody
  · rw [hcommit]
    exact hsame

theorem commit_of_ok {t t' : σ} {a : α} (h : body t = .ok (a, t')) : commit body t = (.ok a, t') := by
  unfold commit
  rw [h]

theorem of_commit_eq_ok {t : σ} {a : α} (h : (commit body t).1 = .ok a) : body t = .ok (a, (commit body t).2) := by
  rcases commit_cases body t with ⟨a', t', hbody, hcommit⟩ | ⟨e, _, hcommit⟩
  · rw [hcommit] at h ⊢
    rw [← Except.ok.inj h]
    exact hbody
  · rw [hcommit] at h
    simp at h

theorem of_commit_eq_error {t : σ} {e : Failure} (h : (commit body t).1 = .error e) : (commit body t).2 = t := by
  rcases commit_cases body t with ⟨a, t', _, hcommit⟩ | ⟨e', _, hcommit⟩
  · rw [hcommit] at h
    simp at h
  · rw [hcommit]

/-- A call with one answer gives it if it changes anything. -/
theorem commit_done {β : Type} {b : β} {t : σ} (body : σ → Result (α × σ)) (h : (commit (fun t => answered (fun _ => b) (body t)) t).2 ≠ t) :
    (commit (fun t => answered (fun _ => b) (body t)) t).1 = .ok b := by
  cases hanswer : (commit (fun t => answered (fun _ => b) (body t)) t).1 with
  | error e => exact absurd (of_commit_eq_error hanswer) h
  | ok answer =>
    obtain ⟨_, _, hdone⟩ := answered_eq_ok.mp (of_commit_eq_ok hanswer)
    rw [← hdone]

def checkedAdd (a b : Nat) : Option Nat := if a + b < 2 ^ 64 then some (a + b) else none

structure MailboxAddress where
  version : UInt8
  (readKey writeKey : Id)
  deriving DecidableEq

structure MailboxWriteAuthorizationContent where
  version : UInt8
  (mailboxId itemId writeKey : Id)
  (requestedTtlSeconds envelopeBytes : Nat)
  envelopeDigest : Bytes
  deriving DecidableEq

structure MailboxStoredReceiptContent where
  version : UInt8
  (storeKey mailboxId itemId : Id)
  envelopeBytes : Nat
  envelopeDigest : Bytes
  (storedAtUnixSeconds expiresAtUnixSeconds : Nat)
  deriving DecidableEq

structure MailboxStoredReceipt where
  content : MailboxStoredReceiptContent
  signature : Bytes
  deriving DecidableEq

/-- The identifier of a receipt is a digest of all of it. -/
abbrev MailboxReceiptId := MailboxStoredReceipt

structure MailboxDeleteReceiptContent where
  version : UInt8
  (storeKey mailboxId itemId : Id)
  storedReceiptId : MailboxReceiptId
  (deletedAtUnixSeconds expiresAtUnixSeconds : Nat)
  deriving DecidableEq

structure MailboxDeleteReceipt where
  content : MailboxDeleteReceiptContent
  signature : Bytes
  deriving DecidableEq

inductive MailboxReadOperation where
  | list (nonce : Id) (afterItemId : Option Id) (limit : UInt16)
  | delete (itemId : Id) (receiptId : MailboxReceiptId)

structure MailboxReadAuthorizationContent where
  version : UInt8
  (mailboxId readKey : Id)
  operation : MailboxReadOperation

structure MailboxEnvelopeContext where
  version : UInt8
  (mailboxId itemId : Id)
  (createdAtUnixSeconds expiresAtUnixSeconds : Nat)

structure SealedMessage where
  (encapsulatedKey ciphertext : Bytes)

structure MailboxEnvelope where
  context : MailboxEnvelopeContext
  sealed : SealedMessage

/-- What is signed, each kind under a domain of its own. -/
inductive Message where
  | write (content : MailboxWriteAuthorizationContent)
  | read (content : MailboxReadAuthorizationContent)
  | storedReceipt (content : MailboxStoredReceiptContent)
  | deleteReceipt (content : MailboxDeleteReceiptContent)

/-- The primitives that the mailbox is built on. -/
structure Primitives where
  mailboxId : (readKey writeKey : Id) → Id
  isPublicKey : Id → Bool
  verifies : (key : Id) → Message → (signature : Bytes) → Bool
  readEnvelope : Bytes → Option MailboxEnvelope

section
variable (P : Primitives)

def verifyingKey (kind : String) (key : Id) : Checked Unit :=
  failIf (P.isPublicKey key = false) (.invalidPublicKey kind)

def verifySignature (kind : String) (key : Id) (message : Message) (signature : Bytes) : Checked Unit := do
  verifyingKey P kind key
  failIf (signature.length ≠ 64) .invalidSignature
  failIf (P.verifies key message signature = false) .authorizationFailed

def validateTtl (ttlSeconds : Nat) : Checked Unit :=
  failIf (¬ (minMailboxTtlSeconds ≤ ttlSeconds ∧ ttlSeconds ≤ maxMailboxTtlSeconds))
    (.invalid "mailbox TTL is outside protocol bounds")

def validateEnvelopeBytes (envelope : Bytes) : Checked Unit :=
  failIf (envelope = [] ∨ envelope.length > maxMailboxEnvelopeBytes) (.invalid "mailbox envelope size is invalid")

def validateEnvelopeTime (created expires : Nat) : Checked Unit := do
  failIf (expires < created) (.invalid "mailbox envelope time is invalid")
  validateTtl (expires - created)

namespace MailboxEnvelope

def validate (e : MailboxEnvelope) : Checked Unit := do
  failIf (e.context.version ≠ Mailbox.version) (.invalid "unsupported mailbox envelope version")
  validateEnvelopeTime e.context.createdAtUnixSeconds e.context.expiresAtUnixSeconds
  failIf (e.sealed.encapsulatedKey.length ≠ 32 ∨ e.sealed.ciphertext = [])
    (.invalid "mailbox HPKE payload is invalid")

def decode (bytes : Bytes) : Checked MailboxEnvelope := do
  validateEnvelopeBytes bytes
  let envelope ← Except.okOr (P.readEnvelope bytes) .encoding
  envelope.validate
  return envelope

end MailboxEnvelope

namespace MailboxAddress

def mailboxId (a : MailboxAddress) : Id := P.mailboxId a.readKey a.writeKey

def verify (a : MailboxAddress) : Checked Unit := do
  failIf (a.version ≠ Mailbox.version) (.invalid "unsupported mailbox address version")
  verifyingKey P "read" a.readKey
  verifyingKey P "write" a.writeKey

end MailboxAddress

structure MailboxWriteAuthorization where
  content : MailboxWriteAuthorizationContent
  signature : Bytes
  deriving DecidableEq

def MailboxWriteAuthorization.verify (w : MailboxWriteAuthorization) (address : MailboxAddress)
    (envelope : Bytes) : Checked Unit := do
  address.verify P
  validateEnvelopeBytes envelope
  validateTtl w.content.requestedTtlSeconds
  failIf (w.content.version ≠ Mailbox.version ∨ w.content.mailboxId ≠ address.mailboxId P ∨
      w.content.writeKey ≠ address.writeKey ∨ w.content.envelopeBytes ≠ envelope.length ∨
      w.content.envelopeDigest ≠ envelope)
    (.invalid "mailbox write authorization does not match request")
  verifySignature P "write" w.content.writeKey (.write w.content) w.signature

structure MailboxReadAuthorization where
  content : MailboxReadAuthorizationContent
  signature : Bytes

def MailboxReadOperation.limitInBounds : MailboxReadOperation → Prop
  | .list _ _ limit => 1 ≤ limit.toNat ∧ limit.toNat ≤ maxMailboxPageItems
  | .delete _ _ => True

instance (o : MailboxReadOperation) : Decidable o.limitInBounds := by
  cases o
  · exact inferInstanceAs (Decidable (_ ∧ _))
  · exact inferInstanceAs (Decidable True)

def MailboxReadAuthorization.verify (r : MailboxReadAuthorization) (address : MailboxAddress) : Checked Unit := do
  address.verify P
  failIf (¬ r.content.operation.limitInBounds) (.invalid "mailbox list page limit is outside protocol bounds")
  failIf (r.content.version ≠ Mailbox.version ∨ r.content.mailboxId ≠ address.mailboxId P ∨
      r.content.readKey ≠ address.readKey)
    (.invalid "mailbox read authorization does not match address")
  verifySignature P "read" r.content.readKey (.read r.content) r.signature

namespace MailboxStoredReceipt

def verify (r : MailboxStoredReceipt) (envelope : Bytes) : Checked Unit := do
  validateEnvelopeBytes envelope
  failIf (r.content.version ≠ Mailbox.version ∨ r.content.envelopeBytes ≠ envelope.length ∨
      r.content.envelopeDigest ≠ envelope ∨
      r.content.storedAtUnixSeconds ≥ r.content.expiresAtUnixSeconds)
    (.invalid "mailbox stored receipt does not match envelope")
  verifySignature P "store" r.content.storeKey (.storedReceipt r.content) r.signature

def verifySignature (r : MailboxStoredReceipt) : Checked Unit := do
  failIf (r.content.version ≠ Mailbox.version ∨ r.content.storedAtUnixSeconds ≥ r.content.expiresAtUnixSeconds)
    (.invalid "mailbox stored receipt time is invalid")
  Mailbox.verifySignature P "store" r.content.storeKey (.storedReceipt r.content) r.signature

def receiptId (r : MailboxStoredReceipt) : Checked MailboxReceiptId := do
  r.verifySignature P
  return r

variable {P} in
theorem receiptId_eq_ok {r : MailboxStoredReceipt} {id : MailboxReceiptId} (h : r.receiptId P = .ok id) : id = r := by
  unfold receiptId at h
  rw [bind_eq_ok] at h
  obtain ⟨_, _, h⟩ := h
  exact (pure_eq_ok.mp h).symm

end MailboxStoredReceipt

def MailboxDeleteReceipt.verify (r : MailboxDeleteReceipt) : Checked Unit := do
  failIf (r.content.version ≠ Mailbox.version ∨ r.content.deletedAtUnixSeconds ≥ r.content.expiresAtUnixSeconds)
    (.invalid "mailbox delete receipt time is invalid")
  Mailbox.verifySignature P "store" r.content.storeKey (.deleteReceipt r.content) r.signature

structure MailboxStoreIdentity where
  storeKey : Id
  sign : Message → Bytes
  isPublicKey : P.isPublicKey storeKey = true
  length_sign : ∀ message, (sign message).length = 64
  verifies : ∀ message, P.verifies storeKey message (sign message) = true

end

namespace MailboxStoreIdentity
variable {P : Primitives}

def storedReceipt (i : MailboxStoreIdentity P) (mailboxId itemId : Id) (envelope : Bytes)
    (storedAtUnixSeconds expiresAtUnixSeconds : Nat) : MailboxStoredReceipt :=
  let content : MailboxStoredReceiptContent := ⟨Mailbox.version, i.storeKey, mailboxId, itemId,
    envelope.length, envelope, storedAtUnixSeconds, expiresAtUnixSeconds⟩
  ⟨content, i.sign (.storedReceipt content)⟩

def deleteReceipt (i : MailboxStoreIdentity P) (mailboxId itemId : Id)
    (storedReceiptId : MailboxReceiptId) (deletedAtUnixSeconds expiresAtUnixSeconds : Nat) :
    MailboxDeleteReceipt :=
  let content : MailboxDeleteReceiptContent := ⟨Mailbox.version, i.storeKey, mailboxId, itemId,
    storedReceiptId, deletedAtUnixSeconds, expiresAtUnixSeconds⟩
  ⟨content, i.sign (.deleteReceipt content)⟩

end MailboxStoreIdentity

/-- An item of a mailbox: the sixty-four bytes of both identifiers. -/
structure ItemKey where
  (mailboxId itemId : Id)
  deriving DecidableEq

namespace ItemKey

def code (k : ItemKey) : Nat := k.mailboxId.toNat * 2 ^ 256 + k.itemId.toNat

theorem code_inj {j k : ItemKey} (h : j.code = k.code) : j = k := by
  obtain ⟨m, x⟩ := j
  obtain ⟨n, y⟩ := k
  have hx := x.isLt
  have hy := y.isLt
  simp only [code] at h
  have hmn : m.toNat = n.toNat := by omega
  have hxy : x.toNat = y.toNat := by omega
  rw [BitVec.eq_of_toNat_eq hmn, BitVec.eq_of_toNat_eq hxy]

instance : Ord ItemKey := ⟨compareOn code⟩
instance : Std.TransOrd ItemKey := inferInstanceAs (Std.TransCmp (compareOn code))
instance : Std.LawfulEqOrd ItemKey := Maps.lawfulEqCmp_compareOn fun _ _ => code_inj

end ItemKey

/-- Primitives that accept every key and signature, for the samples. -/
def samplePrimitives : Primitives where
  mailboxId readKey writeKey := readKey ^^^ writeKey
  isPublicKey _ := true
  verifies _ _ _ := true
  readEnvelope _ := some ⟨⟨Mailbox.version, 3, 10, 0, 600⟩, ⟨List.replicate 32 0, [1]⟩⟩

def sampleSignature : Bytes := List.replicate 64 0

end Kilogram.Mailbox
