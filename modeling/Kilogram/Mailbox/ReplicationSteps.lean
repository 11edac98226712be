import Kilogram.Lib.Handover
import Kilogram.Mailbox.Replication

/-!
# The steps of the replication ledger

Each call of the ledger either leaves the tables as they are or makes one change.
-/

namespace Kilogram.Mailbox
open Std Handover
open Except (ensure_eq_ok ok_iff pure_eq_ok bind_of_ok)
open Maps (forall_insert get_insert_self get_swept)
variable {P : Primitives}

theorem ReplicaSetLocatorRecord.decode_eq_ok {r r' : ReplicaSetLocatorRecord} :
    r.decode = .ok r' ↔ r.validate = .ok () ∧ r' = r := validated_eq_ok

namespace MailboxReplicationLedger

theorem decode_eq_ok : (∀ r r' : ReplicationPlanRecord, r.decode P = .ok r' ↔ r.validate P = .ok () ∧ r' = r) ∧
    (∀ r r' : ReplicaReceiptRecord, r.decode P = .ok r' ↔ r.validate P = .ok () ∧ r' = r) ∧
    (∀ r r' : ReplicaInboundCommitRecord, r.decode P = .ok r' ↔ r.validate P = .ok () ∧ r' = r) ∧
    (∀ r r' : ReplicaInboundDeletedRecord, r.decode P = .ok r' ↔ r.validate P = .ok () ∧ r' = r) := by
  refine ⟨?_, ?_, ?_, ?_⟩ <;> exact fun _ _ => validated_eq_ok

variable (P) in
inductive Change (now : Nat) : Request → ReplicationTables → ReplicationTables → Prop
  | planned {t : ReplicationTables} {request : MailboxPutRequest} {binding salt : Id}
      {requested required : Nat} {record : ReplicationPlanRecord}
      (hrecord : planRecord P request binding salt requested required now = .ok record)
      (hfree : t.plans[record.itemKey]? = none) :
      Change now (.ensurePlan request binding salt requested required) t
        { t with plans := t.plans.insert record.itemKey record }
  | located {t : ReplicationTables} {plan : MailboxReplicationPlan} {commitmentId : Id}
      {storeKeys : List Id} {durable : ReplicationPlanRecord}
      (hvalid : (locatorRecord plan commitmentId storeKeys now).validate = .ok ())
      (hplan : t.plans[(⟨plan.mailboxId, plan.itemId⟩ : ItemKey)]? = some durable)
      (hbinding : durable.dispatchBinding = plan.dispatchBinding)
      (hexpires : durable.expiresAtUnixSeconds = plan.expiresAtUnixSeconds)
      (hfree : t.locators[(⟨plan.mailboxId, plan.itemId⟩ : ItemKey)]? = none) :
      Change now (.ensureReplicaSetLocator plan commitmentId storeKeys) t
        { t with
          locators := t.locators.insert ⟨plan.mailboxId, plan.itemId⟩
            (locatorRecord plan commitmentId storeKeys now) }
  | received {t : ReplicationTables} {request : MailboxPutRequest} {binding transport storeKey : Id}
      {response : MailboxPutResponse} {record : ReplicaReceiptRecord} {plan : ReplicationPlanRecord}
      (hrecord : receiptRecord P request binding transport storeKey response now = .ok record)
      (hplan : t.plans[record.receiptKey.item]? = some plan)
      (hdigest : plan.requestDigest = record.requestDigest)
      (hbinding : plan.dispatchBinding = record.dispatchBinding)
      (hfree : t.receipts[record.receiptKey]? = none)
      (hdistinct : ∀ (key : ReceiptKey) (r : ReplicaReceiptRecord), t.receipts[key]? = some r →
        key.item = record.receiptKey.item → r.transportIdentity ≠ record.transportIdentity) :
      Change now (.recordReceipt request binding transport storeKey response) t
        { t with receipts := t.receipts.insert record.receiptKey record }
  | attempted {t : ReplicationTables} {plan : MailboxReplicationPlan} {retrySeconds : Nat} :
      Change now (.markAttempt plan retrySeconds) t
        { t with attempts := t.attempts.insert ⟨plan.mailboxId, plan.itemId⟩ now }
  | committed {t : ReplicationTables} {prepared : PreparedInboundItem} {transport application : Id}
      {record : ReplicaInboundCommitRecord}
      (hrecord : record = inboundCommitRecord P prepared transport application now)
      (hvalid : record.validate P = .ok ())
      (hdeleted : t.inboundDeleted[record.receiptKey]? = none)
      (hfree : t.inboundCommits[record.receiptKey]? = none) :
      Change now (.recordInboundCommit prepared transport application) t
        { t with inboundCommits := t.inboundCommits.insert record.receiptKey record }
  | deleted {t : ReplicationTables} {pending : PendingReplicaDelete} {response : MailboxDeleteResponse}
      {record : ReplicaInboundDeletedRecord} {commit : ReplicaInboundCommitRecord}
      (hrecord : deletedRecord P pending response now = .ok record)
      (hfree : t.inboundDeleted[record.receiptKey]? = none)
      (hcommit : t.inboundCommits[record.receiptKey]? = some commit)
      (htransport : commit.transportIdentity = record.transportIdentity)
      (hreceipt : commit.storedReceipt = record.storedReceiptId) :
      Change now (.markInboundDeleted pending response) t
        { t with
          inboundDeleted := t.inboundDeleted.insert record.receiptKey record
          inboundCommits := t.inboundCommits.erase record.receiptKey }
  | swept {t t' : ReplicationTables} {report : MailboxReplicationCleanupReport}
      (h : cleanup P now t = .ok (report, t')) : Change now .cleanup t t'

variable {L : MailboxReplicationLedger} {now : Nat} {t t' : ReplicationTables} {put : MailboxPutRequest}
  {response : MailboxPutResponse} {binding salt transport storeKey commitmentId application : Id}
  {requested required retrySeconds : Nat} {plan : MailboxReplicationPlan} {storeKeys : List Id}
  {prepared : PreparedInboundItem} {pending : PendingReplicaDelete} {deleted : MailboxDeleteResponse}

def inbound (t : ReplicationTables) (key : ReceiptKey) :
    Place ReplicaInboundCommitRecord ReplicaInboundDeletedRecord :=
  place t.inboundCommits t.inboundDeleted key

/-- The plan that a locator needs. -/
def Plans (plan : MailboxReplicationPlan) (storeKeys : List Id) (durable : ReplicationPlanRecord) : Prop :=
  durable.dispatchBinding = plan.dispatchBinding ∧ durable.expiresAtUnixSeconds = plan.expiresAtUnixSeconds ∧
    durable.requiredReceipts ≤ storeKeys.length

def CommittedAs (P : Primitives) (prepared : PreparedInboundItem) (transport application : Id)
    (c : ReplicaInboundCommitRecord) : Prop :=
  c = inboundCommitRecord P prepared transport application c.committedAtUnixSeconds

def DeletedAs (prepared : PreparedInboundItem) (transport : Id) (d : ReplicaInboundDeletedRecord) : Prop :=
  d.storedReceiptId = prepared.storedReceipt ∧ d.transportIdentity = transport

def copyKey (P : Primitives) (prepared : PreparedInboundItem) : ReceiptKey :=
  ⟨⟨prepared.mailboxId P, prepared.itemId⟩, prepared.expectedStoreKey⟩

theorem planRecord_eq_ok {record : ReplicationPlanRecord} :
    planRecord P put binding salt requested required now = .ok record ↔
      ∃ envelope, put.validate P = .ok () ∧ MailboxEnvelope.decode P put.envelope = .ok envelope ∧
        record.validate P = .ok () ∧
        record = ⟨recordVersion, put.mailboxId P, put.itemId, put, put, binding, salt, requested, required,
          now, envelope.context.expiresAtUnixSeconds⟩ := by
  simp only [planRecord, ok_iff, Checked.context_eq_ok, decode_eq_ok]
  constructor
  · rintro ⟨_, hrequest, envelope, hdecode, hvalid, rfl⟩
    exact ⟨envelope, hrequest, hdecode, hvalid, rfl⟩
  · rintro ⟨envelope, hrequest, hdecode, hvalid, rfl⟩
    exact ⟨(), hrequest, envelope, hdecode, hvalid, rfl⟩

theorem of_receiptRecord {record : ReplicaReceiptRecord}
    (h : receiptRecord P put binding transport storeKey response now = .ok record) :
    record.validate P = .ok () ∧ record.transportIdentity = transport ∧
      record.recordedAtUnixSeconds = now ∧ record.receiptKey = ⟨put.itemKey P, storeKey⟩ := by
  simp only [receiptRecord, ok_iff, decode_eq_ok] at h
  obtain ⟨_, _, _, _, hvalid, rfl⟩ := h
  exact ⟨hvalid, rfl, rfl, rfl⟩

theorem deletedRecord_eq_ok {record : ReplicaInboundDeletedRecord} :
    deletedRecord P pending deleted now = .ok record ↔ ∃ receipt deletion, deleted.deleteReceipt = some receipt ∧
        deleted.verify P pending.request pending.expectedStoreKey = .ok () ∧
        pending.request.deletion = some deletion ∧ record.validate P = .ok () ∧
        record = ⟨recordVersion, pending.request.mailboxId P, deletion.1, pending.transportIdentity,
          pending.expectedStoreKey, deletion.2, receipt, now⟩ := by
  simp only [deletedRecord, ok_iff, Checked.context_eq_ok, decode_eq_ok]
  constructor
  · rintro ⟨receipt, hreceipt, _, hverify, deletion, hdeletion, hvalid, rfl⟩
    exact ⟨receipt, deletion, hreceipt, hverify, hdeletion, hvalid, rfl⟩
  · rintro ⟨receipt, deletion, hreceipt, hverify, hdeletion, hvalid, rfl⟩
    exact ⟨receipt, hreceipt, (), hverify, deletion, hdeletion, hvalid, rfl⟩

theorem checkTransports_eq_ok {key : ItemKey} {l : List (ReceiptKey × ReplicaReceiptRecord)}
    (h : checkTransports P key transport l = .ok ()) {k : ReceiptKey} {r : ReplicaReceiptRecord}
    (hr : (k, r) ∈ l) (hk : k.item = key) : r.transportIdentity ≠ transport := by
  induction l with
  | nil => simp at hr
  | cons entry rest ih =>
    obtain ⟨j, current⟩ := entry
    unfold checkTransports at h
    split_ifs at h with hj
    · simp only [ok_iff, decode_eq_ok, ensure_eq_ok] at h
      obtain ⟨_, ⟨_, rfl⟩, _, hne, h⟩ := h
      rcases List.mem_cons.mp hr with heq | hr
      · cases heq
        exact hne
      · exact ih h hr
    · rcases List.mem_cons.mp hr with heq | hr
      · cases heq
        exact absurd hk hj
      · exact ih h hr

theorem ensurePlan_returns {r : ReplicationPlanOutcome × MailboxReplicationPlan}
    (h : L.ensurePlan P put binding salt requested required now t = .ok (r, t')) :
    (t' = t ∨ Change P now (.ensurePlan put binding salt requested required) t t') ∧
      ∃ built record, planRecord P put binding salt requested required now = .ok built ∧
        t'.plans[put.itemKey P]? = some record ∧ record.intoPublic = r.2 ∧ samePlan record built := by
  simp only [ensurePlan, ok_iff] at h
  obtain ⟨built, hbuilt, h⟩ := h
  have hkey : built.itemKey = put.itemKey P := by
    obtain ⟨_, _, _, _, rfl⟩ := planRecord_eq_ok.mp hbuilt
    rfl
  split at h
  · next hcurrent =>
    simp only [ok_iff, decode_eq_ok, ensure_eq_ok, Prod.mk.injEq] at h
    obtain ⟨_, ⟨_, rfl⟩, _, hsame, rfl, rfl⟩ := h
    exact ⟨.inl rfl, built, _, hbuilt, hkey ▸ hcurrent, rfl, hsame⟩
  · next hfree =>
    simp only [ok_iff, Prod.mk.injEq] at h
    obtain ⟨_, _, rfl, rfl⟩ := h
    exact ⟨.inr (.planned hbuilt hfree), built, built, hbuilt, hkey ▸ get_insert_self _ _ _, rfl,
      rfl, rfl, rfl, rfl, rfl, rfl, rfl, rfl⟩

theorem ensureReplicaSetLocator_returns {r : MailboxReplicaSetLocator}
    (h : L.ensureReplicaSetLocator P plan commitmentId storeKeys now t = .ok (r, t')) :
    (t' = t ∨ Change P now (.ensureReplicaSetLocator plan commitmentId storeKeys) t t') ∧
      ∃ durable record, (locatorRecord plan commitmentId storeKeys now).validate = .ok () ∧
        t'.plans[(⟨plan.mailboxId, plan.itemId⟩ : ItemKey)]? = some durable ∧
        Plans plan storeKeys durable ∧
        t'.locators[(⟨plan.mailboxId, plan.itemId⟩ : ItemKey)]? = some record ∧ record.intoPublic = r ∧
        sameLocator record (locatorRecord plan commitmentId storeKeys now) := by
  simp only [ensureReplicaSetLocator, ok_iff, decode_eq_ok, ReplicaSetLocatorRecord.decode_eq_ok, ensure_eq_ok] at h
  obtain ⟨_, ⟨hvalid, rfl⟩, durable, hplan, _, ⟨_, rfl⟩, _, hneeds, h⟩ := h
  split at h
  · next hcurrent =>
    simp only [ok_iff, ReplicaSetLocatorRecord.decode_eq_ok, ensure_eq_ok, Prod.mk.injEq] at h
    obtain ⟨_, ⟨_, rfl⟩, _, hsame, rfl, rfl⟩ := h
    exact ⟨.inl rfl, _, _, hvalid, hplan, hneeds, hcurrent, rfl, hsame⟩
  · next hfree =>
    simp only [ok_iff, Prod.mk.injEq] at h
    obtain ⟨_, _, rfl, rfl⟩ := h
    exact ⟨.inr (.located hvalid hplan hneeds.1 hneeds.2.1 hfree), _, _, hvalid, hplan, hneeds,
      get_insert_self _ _ _, rfl, rfl, rfl, rfl, rfl, rfl, rfl, rfl⟩

theorem recordReceipt_returns {r : MailboxReplicaReceipt}
    (h : L.recordReceipt P put binding transport storeKey response now t = .ok (r, t')) :
    (t' = t ∨ Change P now (.recordReceipt put binding transport storeKey response) t t') ∧
      ∃ record durable, receiptRecord P put binding transport storeKey response now = .ok record ∧
        t'.receipts[(⟨put.itemKey P, storeKey⟩ : ReceiptKey)]? = some record ∧ record.intoPublic = r ∧
        t'.plans[put.itemKey P]? = some durable ∧
        (durable.requestDigest = record.requestDigest ∧ durable.dispatchBinding = record.dispatchBinding) := by
  simp only [recordReceipt, ok_iff, decode_eq_ok, ensure_eq_ok] at h
  obtain ⟨record, hrecord, durable, hplan, _, ⟨_, rfl⟩, _, hmatch, h⟩ := h
  obtain ⟨-, htransport, -, hkey⟩ := of_receiptRecord hrecord
  have hplan' := hplan
  rw [hkey] at hplan'
  split at h
  · next hcurrent =>
    simp only [ok_iff, decode_eq_ok, ensure_eq_ok, Prod.mk.injEq] at h
    obtain ⟨_, ⟨_, rfl⟩, _, rfl, rfl, rfl⟩ := h
    exact ⟨.inl rfl, _, _, hrecord, hkey ▸ hcurrent, rfl, hplan', hmatch⟩
  · next hfree =>
    simp only [ok_iff, Prod.mk.injEq] at h
    obtain ⟨_, htransports, _, _, rfl, rfl⟩ := h
    refine ⟨.inr (.received hrecord hplan hmatch.1 hmatch.2 hfree fun key r hr hat => ?_), record, _,
      hrecord, hkey ▸ get_insert_self _ _ _, rfl, hplan', hmatch⟩
    rw [htransport]
    exact checkTransports_eq_ok htransports (TreeMap.mem_toList_iff_getElem?_eq_some.mpr hr) hat

theorem markAttempt_returns {r : Bool} (h : markAttempt P plan now retrySeconds t = .ok (r, t')) :
    t' = t ∨ Change P now (.markAttempt plan retrySeconds) t t' := by
  simp only [markAttempt, ok_iff] at h
  obtain ⟨_, _, _, _, _, _, _, _, h⟩ := h
  split at h
  · simp only [ok_iff] at h
    obtain ⟨_, _, h⟩ := h
    split_ifs at h <;> cases pure_eq_ok.mp h
    · exact .inl rfl
    · exact .inr .attempted
  · cases pure_eq_ok.mp h
    exact .inr .attempted

theorem committedAs_of_same {c : ReplicaInboundCommitRecord}
    (h : c.sameLogicalRecord (inboundCommitRecord P prepared transport application now)) :
    CommittedAs P prepared transport application c := by
  obtain ⟨hversion, hmailbox, hitem, htransport, hkey, hreceipt, happlication⟩ := h
  cases c
  simp only [CommittedAs, inboundCommitRecord, ReplicaInboundCommitRecord.mk.injEq, and_true]
  exact ⟨hversion, hmailbox, hitem, htransport, hkey, hreceipt, happlication⟩

theorem storedReceiptId_of_validate
    (h : (inboundCommitRecord P prepared transport application now).validate P = .ok ()) :
    prepared.storedReceiptId P = .ok prepared.storedReceipt := by
  simp only [ReplicaInboundCommitRecord.validate, ok_iff, Checked.context_eq_ok] at h
  obtain ⟨_, hsignature, _⟩ := h
  have hid : prepared.storedReceipt.receiptId P = .ok prepared.storedReceipt := bind_of_ok hsignature _
  exact Checked.context_eq_ok.mpr hid

theorem recordInboundCommit_returns {u : Unit}
    (h : L.recordInboundCommit P prepared transport application now t = .ok (u, t')) :
    (t' = t ∨ Change P now (.recordInboundCommit prepared transport application) t t') ∧
      (inboundCommitRecord P prepared transport application now).validate P = .ok () ∧
      (inbound t' (copyKey P prepared)).Holds False (CommittedAs P prepared transport application)
        (DeletedAs prepared transport) := by
  simp only [recordInboundCommit, ok_iff, decode_eq_ok] at h
  obtain ⟨_, ⟨hvalid, rfl⟩, h⟩ := h
  rw [and_left_comm]
  refine ⟨hvalid, ?_⟩
  split at h
  · next hdeleted =>
    simp only [ok_iff, decode_eq_ok, ensure_eq_ok, Prod.mk.injEq, storedReceiptId_of_validate hvalid] at h
    obtain ⟨_, ⟨_, rfl⟩, id, hid, _, ⟨htransport, _, hreceipt⟩, -, rfl⟩ := h
    exact ⟨.inl rfl, holds_of_second hdeleted ⟨hreceipt.trans (Except.ok.inj hid).symm, htransport⟩⟩
  · next hdeleted =>
    split at h
    · next hcurrent =>
      simp only [ok_iff, decode_eq_ok, ensure_eq_ok, Prod.mk.injEq] at h
      obtain ⟨_, ⟨_, rfl⟩, _, hsame, -, rfl⟩ := h
      exact ⟨.inl rfl, holds_of_first hdeleted hcurrent (committedAs_of_same hsame)⟩
    · next hfree =>
      simp only [ok_iff, Prod.mk.injEq] at h
      obtain ⟨_, _, -, rfl⟩ := h
      exact ⟨.inr (.committed rfl hvalid hdeleted hfree), holds_of_first hdeleted
        (get_insert_self _ _ (inboundCommitRecord P prepared transport application now)) rfl⟩

theorem markInboundDeleted_returns {u : Unit} (h : L.markInboundDeleted P pending deleted now t = .ok (u, t')) :
    (t' = t ∨ Change P now (.markInboundDeleted pending deleted) t t') ∧
      ∃ built, deletedRecord P pending deleted now = .ok built ∧
        (inbound t' built.receiptKey).Holds False (fun _ => False) (·.sameLogicalRecord built) := by
  simp only [markInboundDeleted, ok_iff] at h
  obtain ⟨built, hbuilt, h⟩ := h
  split at h
  · next hcurrent =>
    simp only [ok_iff, decode_eq_ok, ensure_eq_ok, Prod.mk.injEq] at h
    obtain ⟨_, ⟨_, rfl⟩, _, hsame, -, rfl⟩ := h
    exact ⟨.inl rfl, built, hbuilt, holds_of_second hcurrent hsame⟩
  · next hfree =>
    simp only [ok_iff, ensure_eq_ok, decode_eq_ok, Checked.context_eq_ok, Prod.mk.injEq] at h
    obtain ⟨commit, hcommit, _, ⟨_, rfl⟩, id, hid, _, ⟨htransport, hreceipt⟩, _, _, -, rfl⟩ := h
    rw [MailboxStoredReceipt.receiptId_eq_ok hid] at hreceipt
    exact ⟨.inr (.deleted hbuilt hfree hcommit htransport hreceipt), built, hbuilt,
      holds_of_second (get_insert_self _ _ built) ⟨rfl, rfl, rfl, rfl, rfl, rfl, rfl⟩⟩

theorem transaction_cases {request : Request} {answer : Answer}
    (h : L.transaction P now request t = .ok (answer, t')) :
    t' = t ∨ Change P now request t t' := by
  cases request <;> obtain ⟨_, h, _⟩ := answered_eq_ok.mp h
  case ensurePlan => exact (ensurePlan_returns h).1
  case ensureReplicaSetLocator => exact (ensureReplicaSetLocator_returns h).1
  case recordReceipt => exact (recordReceipt_returns h).1
  case markAttempt => exact markAttempt_returns h
  case recordInboundCommit => exact (recordInboundCommit_returns h).1
  case markInboundDeleted => exact (markInboundDeleted_returns h).1
  case cleanup => exact .inr (.swept h)

theorem serve_cases (L : MailboxReplicationLedger) (call : Timed) (t : ReplicationTables) :
    (L.serve P call t).2 = t ∨ Change P call.now call.request t (L.serve P call t).2 :=
  commit_induction (fun t' => t' = t ∨ Change P call.now call.request t t') (fun _ _ => transaction_cases)
    (.inl rfl)

structure Cleaned (P : Primitives) (now : Nat) (t t' : ReplicationTables) : Prop where
  plans : ∀ (k : ItemKey) (r : ReplicationPlanRecord), t'.plans[k]? = some r ↔
    t.plans[k]? = some r ∧ r.validate P = .ok () ∧ now < r.expiresAtUnixSeconds
  locators : ∀ (k : ItemKey) (r : ReplicaSetLocatorRecord), t'.locators[k]? = some r ↔
    t.locators[k]? = some r ∧ ∀ plan, t.plans[k]? = some plan → now < plan.expiresAtUnixSeconds
  receipts : ∀ (k : ReceiptKey) (r : ReplicaReceiptRecord), t'.receipts[k]? = some r ↔
    t.receipts[k]? = some r ∧ (∀ plan, t.plans[k.item]? = some plan → now < plan.expiresAtUnixSeconds) ∧
      r.validate P = .ok () ∧ now < r.receipt.content.expiresAtUnixSeconds
  inboundCommits : ∀ (k : ReceiptKey) (r : ReplicaInboundCommitRecord),
    t'.inboundCommits[k]? = some r ↔ t.inboundCommits[k]? = some r ∧ r.validate P = .ok () ∧
      now < r.storedReceipt.content.expiresAtUnixSeconds
  inboundDeleted : ∀ (k : ReceiptKey) (r : ReplicaInboundDeletedRecord),
    t'.inboundDeleted[k]? = some r ↔ t.inboundDeleted[k]? = some r ∧ r.validate P = .ok () ∧
      now < r.deleteReceipt.content.expiresAtUnixSeconds

theorem hasExpired_eq_false {α : Type} {v : Result Unit} {r : α} {expires : α → Nat} :
    hasExpired (v >>= fun _ => pure r) expires now = .ok false ↔ v = .ok () ∧ now < expires r := by
  rw [hasExpired_eq_ok]
  simp

theorem notMem_items_iff {items : List ItemKey} (h : Maps.sweep (planExpired P now) t.plans = .ok items)
    (k : ItemKey) :
    k ∉ items ↔ ∀ plan, t.plans[k]? = some plan → now < plan.expiresAtUnixSeconds := by
  rw [Maps.mem_sweep h]
  constructor
  · intro hk plan hplan
    obtain ⟨gone, hgone⟩ := Maps.exists_of_pick h (TreeMap.mem_toList_iff_getElem?_eq_some.mpr hplan)
    cases gone with
    | true => exact absurd ⟨plan, hplan, hgone⟩ hk
    | false => exact (hasExpired_eq_false.mp hgone).2
  · rintro hlive ⟨plan, hplan, hgone⟩
    have hexpired := (hasExpired_eq_ok.mp hgone).2.mp rfl
    exact absurd (hlive plan hplan) (Nat.not_lt.mpr hexpired)

theorem cleaned_of_cleanup {report : MailboxReplicationCleanupReport}
    (h : cleanup P now t = .ok (report, t')) : Cleaned P now t t' := by
  simp only [cleanup, ok_iff] at h
  obtain ⟨items, hitems, receipts, hreceipts, commits, hcommits, deletions, hdeletions, heq⟩ := h
  obtain rfl := (Prod.mk.inj heq).2
  constructor
  · intro k r
    rw [get_swept hitems]
    exact and_congr_right fun _ => hasExpired_eq_false
  · intro k r
    rw [Maps.get_removeAll, ← notMem_items_iff hitems]
    split
    · next hk => simp [hk]
    · next hk => simp [hk]
  · intro k r
    rw [get_swept hreceipts, ← notMem_items_iff hitems]
    refine and_congr_right fun _ => ?_
    unfold receiptExpired
    split
    · next hk => simp [hk]
    · next hk =>
      rw [and_iff_right hk]
      exact hasExpired_eq_false
  · intro k r
    rw [get_swept hcommits]
    exact and_congr_right fun _ => hasExpired_eq_false
  · intro k r
    rw [get_swept hdeletions]
    exact and_congr_right fun _ => hasExpired_eq_false

/-- Every record is valid and at its own key; a receipt and a locator belong to a plan; the receipts
of an item come from different transports. -/
structure Kept (P : Primitives) (t : ReplicationTables) : Prop where
  plan : ∀ (k : ItemKey) (r : ReplicationPlanRecord), t.plans[k]? = some r → r.validate P = .ok () ∧ r.itemKey = k
  locator : ∀ (k : ItemKey) (r : ReplicaSetLocatorRecord), t.locators[k]? = some r →
    r.validate = .ok () ∧ ∃ plan, t.plans[k]? = some plan ∧ locatorMatches r plan
  receipt : ∀ (k : ReceiptKey) (r : ReplicaReceiptRecord), t.receipts[k]? = some r →
    r.validate P = .ok () ∧ r.receiptKey = k ∧ ∃ plan, t.plans[k.item]? = some plan ∧
      r.requestDigest = plan.requestDigest ∧ r.dispatchBinding = plan.dispatchBinding
  distinct : ∀ (j k : ReceiptKey) (q r : ReplicaReceiptRecord), t.receipts[j]? = some q →
    t.receipts[k]? = some r → j.item = k.item → q.transportIdentity = r.transportIdentity → j = k
  inboundCommit : ∀ (k : ReceiptKey) (r : ReplicaInboundCommitRecord),
    t.inboundCommits[k]? = some r → r.validate P = .ok () ∧ r.receiptKey = k
  inboundDeleted : ∀ (k : ReceiptKey) (r : ReplicaInboundDeletedRecord),
    t.inboundDeleted[k]? = some r → r.validate P = .ok () ∧ r.receiptKey = k

theorem kept_empty : Kept P .empty := by
  constructor <;> simp [ReplicationTables.empty]

theorem Kept.planned (h : Kept P t) {record : ReplicationPlanRecord}
    (hvalid : record.validate P = .ok ()) (hfree : t.plans[record.itemKey]? = none) :
    Kept P { t with plans := t.plans.insert record.itemKey record } := by
  refine { h with plan := forall_insert h.plan ⟨hvalid, rfl⟩, locator := ?_, receipt := ?_ }
  · intro k r hr
    obtain ⟨hv, plan, hplan, hmatch⟩ := h.locator k r hr
    exact ⟨hv, plan, Maps.get_insert_of_free _ _ hfree hplan, hmatch⟩
  · intro k r hr
    obtain ⟨hv, hk, plan, hplan, hmatch⟩ := h.receipt k r hr
    exact ⟨hv, hk, plan, Maps.get_insert_of_free _ _ hfree hplan, hmatch⟩

theorem Kept.located (h : Kept P t) {record : ReplicaSetLocatorRecord} {plan : ReplicationPlanRecord}
    (hvalid : record.validate = .ok ()) (hplan : t.plans[record.itemKey]? = some plan)
    (hmatch : locatorMatches record plan) :
    Kept P { t with locators := t.locators.insert record.itemKey record } :=
  { h with locator := forall_insert h.locator ⟨hvalid, plan, hplan, hmatch⟩ }

theorem Kept.received (h : Kept P t) {record : ReplicaReceiptRecord} {plan : ReplicationPlanRecord}
    (hvalid : record.validate P = .ok ()) (hplan : t.plans[record.receiptKey.item]? = some plan)
    (hdigest : plan.requestDigest = record.requestDigest)
    (hbinding : plan.dispatchBinding = record.dispatchBinding)
    (hdistinct : ∀ (key : ReceiptKey) (r : ReplicaReceiptRecord), t.receipts[key]? = some r →
      key.item = record.receiptKey.item → r.transportIdentity ≠ record.transportIdentity) :
    Kept P { t with receipts := t.receipts.insert record.receiptKey record } := by
  refine { h with
    receipt := forall_insert h.receipt ⟨hvalid, rfl, plan, hplan, hdigest.symm, hbinding.symm⟩
    distinct := ?_ }
  intro j k q r hq hr hitem htransport
  rw [Maps.get_insert] at hq hr
  split_ifs at hq hr with hj hk hk
  · exact hj.symm.trans hk
  · cases hq
    exact absurd htransport.symm (hdistinct k r hr (hj ▸ hitem.symm))
  · cases hr
    exact absurd htransport (hdistinct j q hq (hk ▸ hitem))
  · exact h.distinct j k q r hq hr hitem htransport

theorem Kept.cleaned (h : Kept P t) (hc : Cleaned P now t t') : Kept P t' := by
  -- the plan of a record that is left is left too
  have hplan {k : ItemKey} {plan : ReplicationPlanRecord} (hat : t.plans[k]? = some plan)
      (hlive : ∀ plan, t.plans[k]? = some plan → now < plan.expiresAtUnixSeconds) :
      t'.plans[k]? = some plan :=
    (hc.plans k plan).mpr ⟨hat, (h.plan k plan hat).1, hlive plan hat⟩
  constructor
  · exact fun k r hr => h.plan k r ((hc.plans k r).mp hr).1
  · intro k r hr
    obtain ⟨hold, hlive⟩ := (hc.locators k r).mp hr
    obtain ⟨hv, plan, hat, hmatch⟩ := h.locator k r hold
    exact ⟨hv, plan, hplan hat hlive, hmatch⟩
  · intro k r hr
    obtain ⟨hold, hlive, _⟩ := (hc.receipts k r).mp hr
    obtain ⟨hv, hk, plan, hat, hmatch⟩ := h.receipt k r hold
    exact ⟨hv, hk, plan, hplan hat hlive, hmatch⟩
  · exact fun j k q r hq hr => h.distinct j k q r ((hc.receipts j q).mp hq).1 ((hc.receipts k r).mp hr).1
  · exact fun k r hr => h.inboundCommit k r ((hc.inboundCommits k r).mp hr).1
  · exact fun k r hr => h.inboundDeleted k r ((hc.inboundDeleted k r).mp hr).1

theorem Change.kept {request : Request} (hc : Change P now request t t') (h : Kept P t) : Kept P t' := by
  cases hc with
  | planned hrecord hfree =>
    obtain ⟨_, _, _, hvalid, _⟩ := planRecord_eq_ok.mp hrecord
    exact h.planned hvalid hfree
  | @located _ plan commitmentId storeKeys durable hvalid hplan hbinding hexpires _ =>
    have hkey := (h.plan _ _ hplan).2
    have hmatch : locatorMatches (locatorRecord plan commitmentId storeKeys now) durable :=
      ⟨(congrArg ItemKey.mailboxId hkey).symm, (congrArg ItemKey.itemId hkey).symm, hbinding.symm, hexpires.symm⟩
    exact h.located hvalid hplan hmatch
  | received hrecord hplan hdigest hbinding _ hdistinct =>
    exact h.received (of_receiptRecord hrecord).1 hplan hdigest hbinding hdistinct
  | attempted => exact { h with }
  | committed _ hvalid _ _ =>
    exact { h with inboundCommit := forall_insert h.inboundCommit ⟨hvalid, rfl⟩ }
  | deleted hrecord _ _ _ _ =>
    obtain ⟨_, _, _, _, _, hvalid, _⟩ := deletedRecord_eq_ok.mp hrecord
    exact { h with
      inboundCommit := Maps.forall_erase h.inboundCommit
      inboundDeleted := forall_insert h.inboundDeleted ⟨hvalid, rfl⟩ }
  | swept hcleanup => exact h.cleaned (cleaned_of_cleanup hcleanup)

theorem serve_kept (L : MailboxReplicationLedger) (t : ReplicationTables) (call : Timed)
    (h : Kept P t) : Kept P (L.serve P call t).2 := by
  rcases L.serve_cases call t with hsame | hchange
  · rw [hsame]
    exact h
  · exact hchange.kept h

theorem after_kept (L : MailboxReplicationLedger) (calls : List Timed) : Kept P ((L.service P).after calls) :=
  Service.invariant kept_empty L.serve_kept calls

end MailboxReplicationLedger
end Kilogram.Mailbox
