import Kilogram.Mailbox.Ledger
import Kilogram.Mailbox.ReplicationSteps

/-!
# The steps of the client ledger

Each call leaves the tables as they are or makes one change.
-/

namespace Kilogram.Mailbox
open Std Handover
open Except (ensure_eq_ok ok_iff pure_eq_ok bind_of_ok throw_ne_ok)
open Maps (forall_insert get_insert_self get_swept)
variable {P : Primitives}

namespace MailboxClientLedger

theorem decode_eq_ok : (∀ r r' : PendingOutboundRecord, r.decode P = .ok r' ↔ r.validate P = .ok () ∧ r' = r) ∧
    (∀ r r' : StoredOutboundReceipt, r.decode P = .ok r' ↔ r.validate P = .ok () ∧ r' = r) ∧
    (∀ r r' : ReplicatedOutboundCommit, r.decode P = .ok r' ↔ r.validate P = .ok () ∧ r' = r) ∧
    (∀ r r' : DurableOutboundRecord, r.decode P = .ok r' ↔ r.validate P = .ok () ∧ r' = r) ∧
    (∀ r r' : InboundCommitRecord, r.decode P = .ok r' ↔ r.validate P = .ok () ∧ r' = r) ∧
    (∀ r r' : DeletedInboundRecord, r.decode P = .ok r' ↔ r.validate P = .ok () ∧ r' = r) := by
  refine ⟨?_, ?_, ?_, ?_, ?_, ?_⟩ <;> exact fun _ _ => validated_eq_ok

variable (P) in
inductive Change (now : Nat) : Request → ClientTables → ClientTables → Prop
  | queued {t : ClientTables} {request : MailboxPutRequest} {storeKey : Id}
      (hvalid : (pendingRecord request storeKey now).validate P = .ok ())
      (hstored : t.storedOutbound[request.itemKey P]? = none)
      (hfree : t.pendingOutbound[request.itemKey P]? = none) :
      Change now (.enqueueOutbound request storeKey) t
        { t with
          pendingOutbound :=
            t.pendingOutbound.insert (request.itemKey P) (pendingRecord request storeKey now) }
  | stored {t : ClientTables} {request : MailboxPutRequest} {response : MailboxPutResponse}
      {storeKey : Id} {record : StoredOutboundReceipt} {pending : PendingOutboundRecord}
      (hrecord : storedRecord P request response storeKey now = .ok record)
      (hpending : t.pendingOutbound[request.itemKey P]? = some pending)
      (hrequest : pending.request = request) (hkey : pending.expectedStoreKey = storeKey) :
      Change now (.markOutboundStored request response storeKey) t
        { t with
          storedOutbound := t.storedOutbound.insert (request.itemKey P) (.https record)
          pendingOutbound := t.pendingOutbound.erase (request.itemKey P) }
  | replicated {t : ClientTables} {request : MailboxPutRequest} {serviceKey binding commitmentId : Id}
      {storeKeys : List Id} {required : Nat} {receipts : List (Id × MailboxStoredReceipt)}
      {record : ReplicatedOutboundCommit} {pending : PendingOutboundRecord}
      (hrecord : replicatedRecord P request serviceKey binding commitmentId storeKeys required receipts
        now = .ok record)
      (hpending : t.pendingOutbound[request.itemKey P]? = some pending)
      (hrequest : pending.request = request) (hkey : pending.expectedStoreKey = serviceKey) :
      Change now
        (.markOutboundReplicated request serviceKey binding commitmentId storeKeys required receipts) t
        { t with
          storedOutbound := t.storedOutbound.insert (request.itemKey P) (.exactVolunteer record)
          pendingOutbound := t.pendingOutbound.erase (request.itemKey P) }
  | committed {t : ClientTables} {prepared : PreparedInboundItem} {application : Id}
      {record : InboundCommitRecord} (hrecord : record = commitRecord P prepared application now)
      (hvalid : record.validate P = .ok ()) (hdeleted : t.deletedInbound[record.itemKey]? = none)
      (hfree : t.inboundCommits[record.itemKey]? = none) :
      Change now (.recordInboundCommit prepared application) t
        { t with inboundCommits := t.inboundCommits.insert record.itemKey record }
  | deleted {t : ClientTables} {request : MailboxDeleteRequest} {response : MailboxDeleteResponse}
      {storeKey : Id} {record : DeletedInboundRecord} {commit : InboundCommitRecord}
      (hrecord : deletedRecord P request response storeKey now = .ok record)
      (hfree : t.deletedInbound[record.itemKey]? = none)
      (hcommit : t.inboundCommits[record.itemKey]? = some commit)
      (hreceipt : commit.storedReceipt = record.storedReceiptId)
      (hkey : commit.expectedStoreKey = storeKey) :
      Change now (.markInboundDeleted request response storeKey) t
        { t with
          deletedInbound := t.deletedInbound.insert record.itemKey record
          inboundCommits := t.inboundCommits.erase record.itemKey }
  | swept {t t' : ClientTables} {report : MailboxClientCleanupReport}
      (h : cleanup P now t = .ok (report, t')) : Change now .cleanup t t'

variable {L : MailboxClientLedger} {now : Nat} {t t' : ClientTables} {put : MailboxPutRequest}
  {response : MailboxPutResponse} {storeKey serviceKey binding commitmentId application : Id}
  {storeKeys : List Id} {required : Nat} {receipts : List (Id × MailboxStoredReceipt)}
  {prepared : PreparedInboundItem} {del : MailboxDeleteRequest} {deleted : MailboxDeleteResponse}

def outbound (t : ClientTables) (key : ItemKey) : Place PendingOutboundRecord DurableOutboundRecord :=
  place t.pendingOutbound t.storedOutbound key

def inbound (t : ClientTables) (key : ItemKey) : Place InboundCommitRecord DeletedInboundRecord :=
  place t.inboundCommits t.deletedInbound key

def QueuedAs (request : MailboxPutRequest) (storeKey : Id) (p : PendingOutboundRecord) : Prop :=
  p = pendingRecord request storeKey p.queuedAtUnixSeconds

def StoredAs (request : MailboxPutRequest) (storeKey : Id) (r : DurableOutboundRecord) : Prop :=
  r.requestDigest = request ∧ r.expectedServiceStoreKey = storeKey

def CommittedAs (P : Primitives) (prepared : PreparedInboundItem) (application : Id)
    (c : InboundCommitRecord) : Prop :=
  c = commitRecord P prepared application c.committedAtUnixSeconds

def DeletedAs (prepared : PreparedInboundItem) (d : DeletedInboundRecord) : Prop :=
  d.storedReceiptId = prepared.storedReceipt ∧ d.expectedStoreKey = prepared.expectedStoreKey

theorem validate_pendingRecord : (pendingRecord put storeKey now).validate P = .ok () ↔ put.validate P = .ok () := by
  simp only [PendingOutboundRecord.validate, ok_iff, ensure_eq_ok, Checked.context_eq_ok]
  constructor
  · rintro ⟨_, _, hvalid⟩
    exact hvalid
  · intro hvalid
    exact ⟨(), rfl, hvalid⟩

theorem storedRecord_eq_ok {record : StoredOutboundReceipt} :
    storedRecord P put response storeKey now = .ok record ↔ ∃ receipt, response.storedReceipt = some receipt ∧
        response.verify P put storeKey = .ok () ∧ record.validate P = .ok () ∧
        record = ⟨recordVersion, put.mailboxId P, put.itemId, put, storeKey, receipt, now⟩ := by
  simp only [storedRecord, ok_iff, Checked.context_eq_ok, decode_eq_ok]
  constructor
  · rintro ⟨receipt, hreceipt, _, hverify, hvalid, rfl⟩
    exact ⟨receipt, hreceipt, hverify, hvalid, rfl⟩
  · rintro ⟨receipt, hreceipt, hverify, hvalid, rfl⟩
    exact ⟨receipt, hreceipt, (), hverify, hvalid, rfl⟩

theorem of_replicatedRecord {record : ReplicatedOutboundCommit}
    (h : replicatedRecord P put serviceKey binding commitmentId storeKeys required receipts now = .ok record) :
    record.validate P = .ok () ∧ record.requestDigest = put ∧ record.expectedServiceStoreKey = serviceKey := by
  simp only [replicatedRecord, ok_iff, decode_eq_ok] at h
  obtain ⟨_, _, envelope, _, _, _, _, _, hvalid, rfl⟩ := h
  exact ⟨hvalid, rfl, rfl⟩

theorem deletedRecord_eq_ok {record : DeletedInboundRecord} : deletedRecord P del deleted storeKey now = .ok record ↔
      ∃ receipt deletion, deleted.deleteReceipt = some receipt ∧
        deleted.verify P del storeKey = .ok () ∧ del.deletion = some deletion ∧
        record.validate P = .ok () ∧
        record = ⟨recordVersion, del.mailboxId P, deletion.1, storeKey, deletion.2, receipt, now⟩ := by
  simp only [deletedRecord, ok_iff, Checked.context_eq_ok, decode_eq_ok]
  constructor
  · rintro ⟨receipt, hreceipt, _, hverify, deletion, hdeletion, hvalid, rfl⟩
    exact ⟨receipt, deletion, hreceipt, hverify, hdeletion, hvalid, rfl⟩
  · rintro ⟨receipt, deletion, hreceipt, hverify, hdeletion, hvalid, rfl⟩
    exact ⟨receipt, hreceipt, (), hverify, deletion, hdeletion, hvalid, rfl⟩

theorem complete_eq_ok {key : ItemKey} {record : DurableOutboundRecord} {exceeded : String}
    (h : L.complete key record exceeded t = .ok t') : t' = { t with
      storedOutbound := t.storedOutbound.insert key record
      pendingOutbound := t.pendingOutbound.erase key } := by
  simp only [complete, ok_iff] at h
  obtain ⟨_, _, rfl⟩ := h
  rfl

theorem enqueueOutbound_returns {outcome : OutboundEnqueueOutcome}
    (h : L.enqueueOutbound P put storeKey now t = .ok (outcome, t')) :
    (t' = t ∨ Change P now (.enqueueOutbound put storeKey) t t') ∧ put.validate P = .ok () ∧
      (outcome ≠ .conflict → outcome ≠ .capacityExceeded →
        (outbound t' (put.itemKey P)).Holds False (QueuedAs put storeKey) (StoredAs put storeKey)) := by
  simp only [enqueueOutbound, ok_iff, decode_eq_ok] at h
  obtain ⟨_, ⟨hvalid, rfl⟩, h⟩ := h
  rw [and_left_comm]
  refine ⟨validate_pendingRecord.mp hvalid, ?_⟩
  split at h
  · next current hcurrent =>
    simp only [ok_iff, decode_eq_ok] at h
    obtain ⟨_, ⟨_, rfl⟩, h⟩ := h
    split_ifs at h with hsame <;> cases pure_eq_ok.mp h
    · exact ⟨.inl rfl, fun _ _ => holds_of_second hcurrent hsame⟩
    · exact ⟨.inl rfl, fun hconflict => absurd rfl hconflict⟩
  · next hstored =>
    split at h
    · next current hcurrent =>
      split_ifs at h with hsame <;> cases pure_eq_ok.mp h
      · exact ⟨.inl rfl, fun _ _ => holds_of_first hstored hcurrent (hsame ▸ rfl)⟩
      · exact ⟨.inl rfl, fun hconflict => absurd rfl hconflict⟩
    · next hfree =>
      split_ifs at h <;> cases pure_eq_ok.mp h
      · exact ⟨.inl rfl, fun _ hcapacity => absurd rfl hcapacity⟩
      · exact ⟨.inr (.queued hvalid hstored hfree), fun _ _ => holds_of_first hstored (get_insert_self _ _ _) rfl⟩

theorem markOutboundStored_returns {record : StoredOutboundReceipt}
    (h : L.markOutboundStored P put response storeKey now t = .ok (record, t')) :
    (t' = t ∨ Change P now (.markOutboundStored put response storeKey) t t') ∧
      (∃ built, storedRecord P put response storeKey now = .ok built ∧ record.sameLogicalRecord built) ∧
      (outbound t' (put.itemKey P)).Holds False (fun _ => False) (· = .https record) := by
  simp only [markOutboundStored, ok_iff] at h
  obtain ⟨built, hbuilt, h⟩ := h
  split at h
  · next pending hpending =>
    simp only [ok_iff, decode_eq_ok, ensure_eq_ok, Prod.mk.injEq] at h
    obtain ⟨_, ⟨_, rfl⟩, _, ⟨hrequest, hkey⟩, _, hcomplete, rfl, rfl⟩ := h
    obtain rfl := complete_eq_ok hcomplete
    exact ⟨.inr (.stored hbuilt hpending hrequest hkey),
      ⟨built, hbuilt, rfl, rfl, rfl, rfl, rfl, rfl⟩, holds_of_second (get_insert_self _ _ _) rfl⟩
  · simp only [ok_iff, decode_eq_ok] at h
    obtain ⟨_, hcurrent, durable, ⟨_, rfl⟩, h⟩ := h
    cases durable with
    | https current =>
      simp only [ok_iff, ensure_eq_ok, Prod.mk.injEq] at h
      obtain ⟨_, hsame, rfl, rfl⟩ := h
      exact ⟨.inl rfl, ⟨built, hbuilt, hsame⟩, holds_of_second hcurrent rfl⟩
    | exactVolunteer current => exact absurd h throw_ne_ok

theorem markOutboundReplicated_returns {record : ReplicatedOutboundCommit}
    (h : L.markOutboundReplicated P put serviceKey binding commitmentId storeKeys required receipts
      now t = .ok (record, t')) :
    (t' = t ∨ Change P now
      (.markOutboundReplicated put serviceKey binding commitmentId storeKeys required receipts) t t') ∧
      (∃ built, replicatedRecord P put serviceKey binding commitmentId storeKeys required receipts
        now = .ok built ∧ record.sameLogicalRecord built) ∧
      (outbound t' (put.itemKey P)).Holds False (fun _ => False) (· = .exactVolunteer record) := by
  simp only [markOutboundReplicated, ok_iff] at h
  obtain ⟨built, hbuilt, h⟩ := h
  split at h
  · next pending hpending =>
    simp only [ok_iff, decode_eq_ok, ensure_eq_ok, Prod.mk.injEq] at h
    obtain ⟨_, ⟨_, rfl⟩, _, ⟨hrequest, hkey⟩, _, hcomplete, rfl, rfl⟩ := h
    obtain rfl := complete_eq_ok hcomplete
    exact ⟨.inr (.replicated hbuilt hpending hrequest hkey),
      ⟨built, hbuilt, rfl, rfl, rfl, rfl, rfl, rfl, rfl, rfl, rfl, rfl, rfl⟩,
      holds_of_second (get_insert_self _ _ _) rfl⟩
  · simp only [ok_iff, decode_eq_ok] at h
    obtain ⟨_, hcurrent, durable, ⟨_, rfl⟩, h⟩ := h
    cases durable with
    | https current => exact absurd h throw_ne_ok
    | exactVolunteer current =>
      simp only [ok_iff, ensure_eq_ok, Prod.mk.injEq] at h
      obtain ⟨_, hsame, rfl, rfl⟩ := h
      exact ⟨.inl rfl, ⟨built, hbuilt, hsame⟩, holds_of_second hcurrent rfl⟩

theorem committedAs_of_same {c : InboundCommitRecord}
    (h : c.sameLogicalRecord (commitRecord P prepared application now)) :
    CommittedAs P prepared application c := by
  obtain ⟨hversion, hmailbox, hitem, hkey, hreceipt, happlication⟩ := h
  cases c
  simp only [CommittedAs, commitRecord, InboundCommitRecord.mk.injEq, and_true]
  exact ⟨hversion, hmailbox, hitem, hkey, hreceipt, happlication⟩

theorem storedReceiptId_of_validate (h : (commitRecord P prepared application now).validate P = .ok ()) :
    prepared.storedReceiptId P = .ok prepared.storedReceipt := by
  simp only [InboundCommitRecord.validate, ok_iff, Checked.context_eq_ok] at h
  obtain ⟨_, _, _, hsignature, _⟩ := h
  have hid : prepared.storedReceipt.receiptId P = .ok prepared.storedReceipt := bind_of_ok hsignature _
  exact Checked.context_eq_ok.mpr hid

theorem recordInboundCommit_returns {u : Unit}
    (h : L.recordInboundCommit P prepared application now t = .ok (u, t')) :
    (t' = t ∨ Change P now (.recordInboundCommit prepared application) t t') ∧
      (commitRecord P prepared application now).validate P = .ok () ∧
      (inbound t' ⟨prepared.mailboxId P, prepared.itemId⟩).Holds False
        (CommittedAs P prepared application) (DeletedAs prepared) := by
  simp only [recordInboundCommit, ok_iff, decode_eq_ok] at h
  obtain ⟨_, ⟨hvalid, rfl⟩, h⟩ := h
  rw [and_left_comm]
  refine ⟨hvalid, ?_⟩
  split at h
  · next hdeleted =>
    simp only [ok_iff, decode_eq_ok, ensure_eq_ok, Prod.mk.injEq, storedReceiptId_of_validate hvalid] at h
    obtain ⟨_, ⟨_, rfl⟩, id, hid, _, ⟨hreceipt, hkey⟩, -, rfl⟩ := h
    exact ⟨.inl rfl, holds_of_second hdeleted ⟨hreceipt.trans (Except.ok.inj hid).symm, hkey⟩⟩
  · next hdeleted =>
    split at h
    · next hcurrent =>
      simp only [ok_iff, decode_eq_ok, ensure_eq_ok, Prod.mk.injEq] at h
      obtain ⟨_, ⟨_, rfl⟩, _, hsame, -, rfl⟩ := h
      exact ⟨.inl rfl, holds_of_first hdeleted hcurrent (committedAs_of_same hsame)⟩
    · next hfree =>
      simp only [ok_iff, Prod.mk.injEq] at h
      obtain ⟨_, _, -, rfl⟩ := h
      exact ⟨.inr (.committed rfl hvalid hdeleted hfree),
        holds_of_first hdeleted (get_insert_self _ _ (commitRecord P prepared application now)) rfl⟩

theorem markInboundDeleted_returns {u : Unit} (h : L.markInboundDeleted P del deleted storeKey now t = .ok (u, t')) :
    (t' = t ∨ Change P now (.markInboundDeleted del deleted storeKey) t t') ∧
      ∃ built, deletedRecord P del deleted storeKey now = .ok built ∧
        (inbound t' built.itemKey).Holds False (fun _ => False) (·.sameLogicalRecord built) := by
  simp only [markInboundDeleted, ok_iff] at h
  obtain ⟨built, hbuilt, h⟩ := h
  split at h
  · next hcurrent =>
    simp only [ok_iff, decode_eq_ok, ensure_eq_ok, Prod.mk.injEq] at h
    obtain ⟨_, ⟨_, rfl⟩, _, hsame, -, rfl⟩ := h
    exact ⟨.inl rfl, built, hbuilt, holds_of_second hcurrent hsame⟩
  · next hfree =>
    simp only [ok_iff, ensure_eq_ok, decode_eq_ok, Checked.context_eq_ok, Prod.mk.injEq] at h
    obtain ⟨commit, hcommit, _, ⟨_, rfl⟩, id, hid, _, ⟨hreceipt, hkey⟩, _, _, -, rfl⟩ := h
    rw [MailboxStoredReceipt.receiptId_eq_ok hid] at hreceipt
    exact ⟨.inr (.deleted hbuilt hfree hcommit hreceipt hkey), built, hbuilt,
      holds_of_second (get_insert_self _ _ built) ⟨rfl, rfl, rfl, rfl, rfl, rfl⟩⟩

/-- A call that succeeds changes nothing or makes its change. -/
theorem transaction_cases {request : Request} {answer : Answer}
    (h : L.transaction P now request t = .ok (answer, t')) :
    t' = t ∨ Change P now request t t' := by
  cases request <;> obtain ⟨_, h, _⟩ := answered_eq_ok.mp h
  case enqueueOutbound => exact (enqueueOutbound_returns h).1
  case markOutboundStored => exact (markOutboundStored_returns h).1
  case markOutboundReplicated => exact (markOutboundReplicated_returns h).1
  case recordInboundCommit => exact (recordInboundCommit_returns h).1
  case markInboundDeleted => exact (markInboundDeleted_returns h).1
  case cleanup => exact .inr (.swept h)

theorem serve_cases (L : MailboxClientLedger) (call : Timed) (t : ClientTables) :
    (L.serve P call t).2 = t ∨ Change P call.now call.request t (L.serve P call t).2 :=
  commit_induction (fun t' => t' = t ∨ Change P call.now call.request t t') (fun _ _ => transaction_cases)
    (.inl rfl)

/-- Every record is valid and at its own key, and no item is in two stages at once. -/
structure Kept (P : Primitives) (t : ClientTables) : Prop where
  pending : ∀ (k : ItemKey) (r : PendingOutboundRecord), t.pendingOutbound[k]? = some r → r.validate P = .ok ()
  stored : ∀ (k : ItemKey) (r : DurableOutboundRecord), t.storedOutbound[k]? = some r → r.validate P = .ok ()
  commit : ∀ (k : ItemKey) (r : InboundCommitRecord), t.inboundCommits[k]? = some r →
    r.validate P = .ok () ∧ r.itemKey = k
  deletion : ∀ (k : ItemKey) (r : DeletedInboundRecord), t.deletedInbound[k]? = some r → r.validate P = .ok ()
  outbound : Exclusive t.pendingOutbound t.storedOutbound
  inbound : Exclusive t.inboundCommits t.deletedInbound

theorem kept_empty : Kept P .empty := by
  constructor
  case outbound => exact fun k => .inl (by simp [ClientTables.empty])
  case inbound => exact fun k => .inl (by simp [ClientTables.empty])
  all_goals simp [ClientTables.empty]

theorem Kept.completed (h : Kept P t) (key : ItemKey) {record : DurableOutboundRecord}
    (hvalid : record.validate P = .ok ()) : Kept P { t with
      storedOutbound := t.storedOutbound.insert key record
      pendingOutbound := t.pendingOutbound.erase key } :=
  { h with
    pending := Maps.forall_erase h.pending
    stored := forall_insert h.stored hvalid
    outbound := h.outbound.pass key record }

theorem Kept.swept (h : Kept P t) {report : MailboxClientCleanupReport}
    (hcleanup : cleanup P now t = .ok (report, t')) : Kept P t' := by
  simp only [cleanup, ok_iff] at hcleanup
  obtain ⟨pending, hpending, stored, hstored, commits, hcommits, deletions, hdeletions, heq⟩ := hcleanup
  obtain rfl := (Prod.mk.inj heq).2
  -- what is left was there before
  have hp {k : ItemKey} {r : PendingOutboundRecord}
      (hr : (Maps.removeAll t.pendingOutbound pending)[k]? = some r) := ((get_swept hpending k r).mp hr).1
  have hs {k : ItemKey} {r : DurableOutboundRecord}
      (hr : (Maps.removeAll t.storedOutbound stored)[k]? = some r) := ((get_swept hstored k r).mp hr).1
  have hc {k : ItemKey} {r : InboundCommitRecord}
      (hr : (Maps.removeAll t.inboundCommits commits)[k]? = some r) := ((get_swept hcommits k r).mp hr).1
  have hd {k : ItemKey} {r : DeletedInboundRecord} (hr : (Maps.removeAll t.deletedInbound deletions)[k]? = some r) :=
    ((get_swept hdeletions k r).mp hr).1
  exact ⟨fun k r hr => h.pending k r (hp hr), fun k r hr => h.stored k r (hs hr),
    fun k r hr => h.commit k r (hc hr), fun k r hr => h.deletion k r (hd hr),
    h.outbound.sub (fun _ _ => hp) fun _ _ => hs, h.inbound.sub (fun _ _ => hc) fun _ _ => hd⟩

theorem Change.kept {request : Request} (hc : Change P now request t t') (h : Kept P t) : Kept P t' := by
  cases hc with
  | queued hvalid hstored _ =>
    exact { h with
      pending := forall_insert h.pending hvalid
      outbound := h.outbound.enter hstored _ }
  | stored hrecord _ _ _ =>
    obtain ⟨_, _, _, hvalid, _⟩ := storedRecord_eq_ok.mp hrecord
    exact h.completed _ hvalid
  | replicated hrecord _ _ _ => exact h.completed _ (of_replicatedRecord hrecord).1
  | committed _ hvalid hdeleted _ =>
    exact { h with
      commit := forall_insert h.commit ⟨hvalid, rfl⟩
      inbound := h.inbound.enter hdeleted _ }
  | deleted hrecord _ _ _ _ =>
    obtain ⟨_, _, _, _, _, hvalid, _⟩ := deletedRecord_eq_ok.mp hrecord
    exact { h with
      commit := Maps.forall_erase h.commit
      deletion := forall_insert h.deletion hvalid
      inbound := h.inbound.pass _ _ }
  | swept hcleanup => exact h.swept hcleanup

theorem serve_kept (L : MailboxClientLedger) (t : ClientTables) (call : Timed) (h : Kept P t) :
    Kept P (L.serve P call t).2 := by
  rcases L.serve_cases call t with hsame | hchange
  · rw [hsame]
    exact h
  · exact hchange.kept h

theorem after_kept (L : MailboxClientLedger) (calls : List Timed) : Kept P ((L.service P).after calls) :=
  Service.invariant kept_empty L.serve_kept calls

def EnvelopeExpired (P : Primitives) (now : Nat) (r : PendingOutboundRecord) : Prop :=
  ∃ envelope, MailboxEnvelope.decode P r.request.envelope = .ok envelope ∧ envelope.context.expiresAtUnixSeconds ≤ now

/-- An upload is queued by a call that asks for it, is completed as it was queued, and is forgotten by
a cleanup after it has expired. -/
def outboundRules (P : Primitives) (call : Timed) : Rules PendingOutboundRecord DurableOutboundRecord where
  enters p := ∃ request storeKey, call.request = .enqueueOutbound request storeKey ∧
    p = pendingRecord request storeKey call.now
  passes p r := r.requestDigest = p.request ∧ r.expectedServiceStoreKey = p.expectedStoreKey
  leavesFirst p := call.request = .cleanup ∧ EnvelopeExpired P call.now p
  leavesSecond r := call.request = .cleanup ∧ r.expiresAtUnixSeconds ≤ call.now

/-- An inbound item is committed by a call that says so, is deleted with the receipt it was committed
with, and is forgotten by a cleanup after its receipt has expired. -/
def inboundRules (P : Primitives) (key : ItemKey) (call : Timed) :
    Rules InboundCommitRecord DeletedInboundRecord where
  enters c := c.itemKey = key ∧ ∃ prepared application, call.request = .recordInboundCommit prepared application ∧
      c = commitRecord P prepared application call.now
  passes c d := d.storedReceiptId = c.storedReceipt ∧ d.expectedStoreKey = c.expectedStoreKey
  leavesFirst c := call.request = .cleanup ∧ c.storedReceipt.content.expiresAtUnixSeconds ≤ call.now
  leavesSecond d := call.request = .cleanup ∧ d.deleteReceipt.content.expiresAtUnixSeconds ≤ call.now

theorem envelopeExpired_of_pendingExpired {key : ItemKey} {r : PendingOutboundRecord}
    (h : pendingExpired P now key r = .ok true) : EnvelopeExpired P now r := by
  simp only [pendingExpired, ok_iff, decode_eq_ok, Checked.context_eq_ok, decide_eq_true_eq] at h
  obtain ⟨_, ⟨_, rfl⟩, envelope, hdecode, hexpired⟩ := h
  exact ⟨envelope, hdecode, hexpired⟩

theorem Change.outbound_moves {request : Request} (hc : Change P now request t t') (h : Kept P t)
    (key : ItemKey) : Moves (outboundRules P ⟨now, request⟩) (outbound t key) (outbound t' key) := by
  cases hc with
  | @queued _ request storeKey _ hstored hfree =>
    exact moves_enter hstored hfree key fun _ => ⟨request, storeKey, rfl, rfl⟩
  | stored hrecord hpending hrequest hkey =>
    obtain ⟨_, _, _, _, rfl⟩ := storedRecord_eq_ok.mp hrecord
    refine moves_pass h.outbound hpending ?_ key
    exact ⟨hrequest.symm, hkey.symm⟩
  | replicated hrecord hpending hrequest hkey =>
    obtain ⟨_, hdigest, hservice⟩ := of_replicatedRecord hrecord
    refine moves_pass h.outbound hpending ?_ key
    exact ⟨hdigest.trans hrequest.symm, hservice.trans hkey.symm⟩
  | swept hcleanup =>
    simp only [cleanup, ok_iff] at hcleanup
    obtain ⟨pending, hpending, stored, hstored, _, _, _, _, heq⟩ := hcleanup
    obtain rfl := (Prod.mk.inj heq).2
    exact moves_swept h.outbound hpending hstored (fun _ hgone => ⟨rfl, envelopeExpired_of_pendingExpired hgone⟩)
      fun _ hgone => ⟨rfl, (hasExpired_eq_ok.mp hgone).2.mp rfl⟩
  | _ => exact .stays _

theorem Change.inbound_moves {request : Request} (hc : Change P now request t t') (h : Kept P t)
    (key : ItemKey) : Moves (inboundRules P key ⟨now, request⟩) (inbound t key) (inbound t' key) := by
  cases hc with
  | @committed _ prepared application record hrecord _ hdeleted hfree =>
    exact moves_enter hdeleted hfree key fun hkey => ⟨hkey, prepared, application, rfl, hrecord⟩
  | deleted hrecord _ hcommit hreceipt hkey =>
    obtain ⟨_, _, _, _, _, _, rfl⟩ := deletedRecord_eq_ok.mp hrecord
    refine moves_pass h.inbound hcommit ?_ key
    exact ⟨hreceipt.symm, hkey.symm⟩
  | swept hcleanup =>
    simp only [cleanup, ok_iff] at hcleanup
    obtain ⟨_, _, _, _, commits, hcommits, deletions, hdeletions, heq⟩ := hcleanup
    obtain rfl := (Prod.mk.inj heq).2
    exact moves_swept h.inbound hcommits hdeletions (fun _ hgone => ⟨rfl, (hasExpired_eq_ok.mp hgone).2.mp rfl⟩)
      fun _ hgone => ⟨rfl, (hasExpired_eq_ok.mp hgone).2.mp rfl⟩
  | _ => exact .stays _

theorem serve_outbound (L : MailboxClientLedger) (call : Timed) (h : Kept P t) (key : ItemKey) :
    Moves (outboundRules P call) (outbound t key) (outbound (L.serve P call t).2 key) := by
  rcases L.serve_cases call t with hsame | hchange
  · rw [hsame]
    exact .stays _
  · exact hchange.outbound_moves h key

theorem serve_inbound (L : MailboxClientLedger) (call : Timed) (h : Kept P t) (key : ItemKey) :
    Moves (inboundRules P key call) (inbound t key) (inbound (L.serve P call t).2 key) := by
  rcases L.serve_cases call t with hsame | hchange
  · rw [hsame]
    exact .stays _
  · exact hchange.inbound_moves h key

end MailboxClientLedger
end Kilogram.Mailbox
