import Kilogram.Mailbox.ReplicationSteps

/-!
# Commits, deletions and repeated calls of the replication ledger

The copies that were received go from the committed table to the deleted one. The store and its transport
belong to what is recorded.
-/

namespace Kilogram.Mailbox.MailboxReplicationLedger
open Std Handover
open Except (ensure_eq_ok ensure_of ok_iff pure_eq_ok bind_of_ok okOr)
variable {P : Primitives} {L : MailboxReplicationLedger} {now now' : Nat} {t t' : ReplicationTables}
  {calls before later : List Timed} {request : Request} {answer : Answer} {put : MailboxPutRequest}
  {response : MailboxPutResponse} {binding salt transport storeKey commitmentId application : Id}
  {requested required : Nat} {plan : MailboxReplicationPlan} {storeKeys : List Id}
  {address : MailboxAddress} {cap : MailboxReadCapability} {receipt : MailboxStoredReceipt}
  {prepared : PreparedInboundItem} {pending : PendingReplicaDelete} {deleted : MailboxDeleteResponse}

/-- A copy is committed by a call that says so, is deleted with the receipt and the transport it was
committed with, and is forgotten by a cleanup after its receipt has expired. -/
def inboundRules (P : Primitives) (key : ReceiptKey) (call : Timed) :
    Rules ReplicaInboundCommitRecord ReplicaInboundDeletedRecord where
  enters c := c.receiptKey = key ∧ ∃ prepared transport application,
    call.request = .recordInboundCommit prepared transport application ∧
      c = inboundCommitRecord P prepared transport application call.now
  passes c d := d.storedReceiptId = c.storedReceipt ∧ d.transportIdentity = c.transportIdentity
  leavesFirst c := call.request = .cleanup ∧ c.storedReceipt.content.expiresAtUnixSeconds ≤ call.now
  leavesSecond d := call.request = .cleanup ∧ d.deleteReceipt.content.expiresAtUnixSeconds ≤ call.now

theorem Change.exclusive (hc : Change P now request t t') (h : Exclusive t.inboundCommits t.inboundDeleted) :
    Exclusive t'.inboundCommits t'.inboundDeleted := by
  cases hc with
  | committed _ _ hdeleted _ => exact h.enter hdeleted _
  | deleted => exact h.pass _ _
  | swept hcleanup =>
    have hcleaned := cleaned_of_cleanup hcleanup
    exact h.sub (fun k r hr => ((hcleaned.inboundCommits k r).mp hr).1)
      fun k r hr => ((hcleaned.inboundDeleted k r).mp hr).1
  | _ => exact h

theorem after_exclusive (L : MailboxReplicationLedger) (calls : List Timed) :
    Exclusive ((L.service P).after calls).inboundCommits ((L.service P).after calls).inboundDeleted := by
  refine Service.invariant (I := fun t : ReplicationTables =>
    Exclusive t.inboundCommits t.inboundDeleted) ?_ ?_ calls
  · exact fun k => Or.inl (by simp [service, ReplicationTables.empty])
  · intro t call h
    have hserve : ((L.service P).serve call t).2 = (L.serve P call t).2 := rfl
    rw [hserve]
    rcases L.serve_cases call t with hsame | hchange
    · rw [hsame]
      exact h
    · exact hchange.exclusive h

theorem Change.inbound_moves (hc : Change P now request t t')
    (h : Exclusive t.inboundCommits t.inboundDeleted) (key : ReceiptKey) :
    Moves (inboundRules P key ⟨now, request⟩) (inbound t key) (inbound t' key) := by
  cases hc with
  | @committed _ prepared transport application record hrecord _ hdeleted hfree =>
    exact moves_enter hdeleted hfree key fun hkey => ⟨hkey, prepared, transport, application, rfl, hrecord⟩
  | deleted _ _ hcommit htransport hreceipt =>
    refine moves_pass h hcommit ?_ key
    exact ⟨hreceipt.symm, htransport.symm⟩
  | swept hcleanup =>
    simp only [cleanup, ok_iff] at hcleanup
    obtain ⟨_, _, _, _, commits, hcommits, deletions, hdeletions, heq⟩ := hcleanup
    obtain rfl := (Prod.mk.inj heq).2
    exact moves_swept h hcommits hdeletions (fun _ hgone => ⟨rfl, (hasExpired_eq_ok.mp hgone).2.mp rfl⟩)
      fun _ hgone => ⟨rfl, (hasExpired_eq_ok.mp hgone).2.mp rfl⟩
  | _ => exact .stays _

theorem serve_inbound (L : MailboxReplicationLedger) (call : Timed)
    (h : Exclusive t.inboundCommits t.inboundDeleted) (key : ReceiptKey) :
    Moves (inboundRules P key call) (inbound t key) (inbound (L.serve P call t).2 key) := by
  rcases L.serve_cases call t with hsame | hchange
  · rw [hsame]
    exact .stays _
  · exact hchange.inbound_moves h key

/-- A call before has recorded the commit of the copy with this transport and receipt. -/
def CommittedBefore (P : Primitives) (L : MailboxReplicationLedger) (calls : List Timed)
    (key : ReceiptKey) (transport : Id) (receipt : MailboxStoredReceipt) : Prop :=
  ∃ now prepared application,
    (L.service P).Answered calls ⟨now, .recordInboundCommit prepared transport application⟩ (.ok .done) ∧
      prepared.mailboxId P = key.item.mailboxId ∧ prepared.itemId = key.item.itemId ∧
      prepared.expectedStoreKey = key.storeKey ∧ prepared.storedReceipt = receipt

variable {key : ReceiptKey}

theorem CommittedBefore.concat (h : CommittedBefore P L calls key transport receipt)
    (call : Timed) : CommittedBefore P L (calls ++ [call]) key transport receipt := by
  obtain ⟨now, prepared, application, hanswered, hitem⟩ := h
  exact ⟨now, prepared, application, hanswered.concat call, hitem⟩

theorem inbound_committed (L : MailboxReplicationLedger) (calls : List Timed) (key : ReceiptKey) :
    (inbound ((L.service P).after calls) key).Holds True
      (fun c => CommittedBefore P L calls key c.transportIdentity c.storedReceipt)
      (fun d => CommittedBefore P L calls key d.transportIdentity d.storedReceiptId) := by
  refine holds_history (w := (inbound · key)) (R := inboundRules P key)
    (A := fun calls c => CommittedBefore P L calls key c.transportIdentity c.storedReceipt)
    (B := fun calls d => CommittedBefore P L calls key d.transportIdentity d.storedReceiptId)
    (place_eq_absent.mpr ⟨by simp [service, ReplicationTables.empty], by simp [service, ReplicationTables.empty]⟩)
    (fun calls call => L.serve_inbound call (L.after_exclusive calls) key) (fun _ call _ hc => hc.concat call)
    (fun _ call _ hd => hd.concat call) ?_ ?_ calls
  · rintro calls ⟨now, _⟩ _ hmoved ⟨hkey, prepared, transport, application, rfl, rfl⟩
    refine ⟨now, prepared, application, ?_, congrArg (·.item.mailboxId) hkey, congrArg (·.item.itemId) hkey,
      congrArg (·.storeKey) hkey, rfl⟩
    rw [← commit_done (L.recordInboundCommit P prepared transport application now)
      fun hsame => hmoved (congrArg (inbound · key) hsame.symm)]
    exact Service.answered_last calls _
  · rintro _ _ c d ⟨hreceipt, htransport⟩ hc
    rw [hreceipt, htransport]
    exact hc

/-- The deletion belongs to a copy whose commit was recorded before. -/
def Offered (P : Primitives) (L : MailboxReplicationLedger) (calls : List Timed)
    (pending : PendingReplicaDelete) : Prop :=
  ∃ itemId receipt, pending.request.deletion = some (itemId, receipt) ∧
    CommittedBefore P L calls ⟨⟨pending.request.mailboxId P, itemId⟩, pending.expectedStoreKey⟩
      pending.transportIdentity receipt

theorem of_pendingDelete {record : ReplicaInboundCommitRecord}
    (h : pendingDelete P address cap record = .ok pending) :
    pending.request.mailboxId P = address.mailboxId P ∧
      pending.request.deletion = some (record.itemId, record.storedReceipt) ∧
      pending.expectedStoreKey = record.expectedStoreKey ∧
      pending.transportIdentity = record.transportIdentity := by
  simp only [pendingDelete, ok_iff, Checked.context_eq_ok, MailboxReadCapability.authorizeDelete,
    MailboxReadCapability.authorize, MailboxDeleteRequest.new] at h
  obtain ⟨id, hid, _, ⟨_, _, _, _, rfl⟩, _, ⟨_, _, rfl⟩, rfl⟩ := h
  obtain rfl := MailboxStoredReceipt.receiptId_eq_ok hid
  exact ⟨rfl, rfl, rfl, rfl⟩

theorem offered_of_pendingDelete (L : MailboxReplicationLedger) (calls : List Timed)
    {record : ReplicaInboundCommitRecord}
    (hat : ((L.service P).after calls).inboundCommits[key]? = some record)
    (hmailbox : record.mailboxId = address.mailboxId P)
    (h : pendingDelete P address cap record = .ok pending) : Offered P L calls pending := by
  obtain ⟨hrequest, hdeletion, hstore, htransport⟩ := of_pendingDelete h
  have hcommitted := L.inbound_committed (P := P) calls key
  have hplace : inbound ((L.service P).after calls) key = .first record :=
    (L.after_exclusive calls).place_of_first hat
  rw [hplace] at hcommitted
  obtain rfl := ((L.after_kept calls).inboundCommit key record hat).2
  refine ⟨record.itemId, record.storedReceipt, hdeletion, ?_⟩
  rw [hrequest, hstore, htransport, ← hmailbox]
  exact hcommitted

theorem pendingInboundDeleteFor_offered (L : MailboxReplicationLedger) (calls : List Timed) {itemId : Id}
    (h : pendingInboundDeleteFor P address cap itemId storeKey ((L.service P).after calls) =
      .ok (some pending)) : Offered P L calls pending := by
  simp only [pendingInboundDeleteFor, ok_iff] at h
  obtain ⟨_, _, h⟩ := h
  split at h
  · exact absurd (pure_eq_ok.mp h) (by simp)
  · next record hat =>
    simp only [ok_iff, decode_eq_ok, ensure_eq_ok, Option.some.injEq] at h
    obtain ⟨_, ⟨_, rfl⟩, _, ⟨hmailbox, _⟩, _, hpending, rfl⟩ := h
    exact offered_of_pendingDelete L calls hat hmailbox hpending

variable {found : List PendingReplicaDelete} {r : ReplicaSetLocatorRecord}
  {built : ReplicaInboundDeletedRecord} {durable : ReplicationPlanRecord}

theorem collectDeletes_offered (L : MailboxReplicationLedger) (calls : List Timed) {limit : Nat}
    {l : List (ReceiptKey × ReplicaInboundCommitRecord)} {collected : List PendingReplicaDelete}
    (hl : ∀ key record, (key, record) ∈ l → ((L.service P).after calls).inboundCommits[key]? = some record)
    (hcollected : ∀ pending ∈ collected, Offered P L calls pending)
    (h : collectDeletes P address cap limit l collected = .ok found) :
    ∀ pending ∈ found, Offered P L calls pending := by
  induction l generalizing collected with
  | nil =>
    obtain rfl := pure_eq_ok.mp h
    exact hcollected
  | cons entry rest ih =>
    obtain ⟨key, record⟩ := entry
    have hrest : ∀ key record, (key, record) ∈ rest →
        ((L.service P).after calls).inboundCommits[key]? = some record :=
      fun key record hr => hl key record (.tail _ hr)
    simp only [collectDeletes, ok_iff, decode_eq_ok] at h
    obtain ⟨_, ⟨_, rfl⟩, _, _, h⟩ := h
    split_ifs at h with hmailbox
    · exact ih hrest hcollected h
    · simp only [ok_iff] at h
      obtain ⟨pending, hpending, h⟩ := h
      have hoffered := offered_of_pendingDelete L calls (hl key _ List.mem_cons_self) (not_not.mp hmailbox) hpending
      have hmore : ∀ p ∈ collected ++ [pending], Offered P L calls p := by
        intro p hp
        rcases List.mem_append.mp hp with hp | hp
        · exact hcollected p hp
        · exact List.mem_singleton.mp hp ▸ hoffered
      split_ifs at h
      · obtain rfl := pure_eq_ok.mp h
        exact hmore
      · exact ih hrest hmore h

theorem pendingInboundDeletes_offered (L : MailboxReplicationLedger) (calls : List Timed) {limit : Nat}
    (h : pendingInboundDeletes P address cap limit ((L.service P).after calls) = .ok found) :
    ∀ pending ∈ found, Offered P L calls pending := by
  simp only [pendingInboundDeletes, ok_iff] at h
  obtain ⟨_, _, _, _, h⟩ := h
  exact collectDeletes_offered L calls (fun _ _ hmem => TreeMap.mem_toList_iff_getElem?_eq_some.mp hmem) (by simp) h

theorem pendingInboundDelete_offered (L : MailboxReplicationLedger) (calls : List Timed)
    (h : pendingInboundDelete P address cap ((L.service P).after calls) = .ok (some pending)) :
    Offered P L calls pending := by
  simp only [pendingInboundDelete, ok_iff] at h
  obtain ⟨found, hfound, hhead⟩ := h
  exact pendingInboundDeletes_offered L calls hfound pending (List.mem_of_head? hhead)

theorem deletion_committed (L : MailboxReplicationLedger) (calls : List Timed)
    {record : ReplicaInboundDeletedRecord}
    (h : ((L.service P).after calls).inboundDeleted[key]? = some record) :
    CommittedBefore P L calls key record.transportIdentity record.storedReceiptId := by
  have hcommitted := L.inbound_committed (P := P) calls key
  have hplace : inbound ((L.service P).after calls) key = .second record := place_eq_second.mpr h
  rw [hplace] at hcommitted
  exact hcommitted

theorem Change.plan_stays (hc : Change P now request t t') {key : ItemKey} {r : ReplicationPlanRecord}
    (hr : t.plans[key]? = some r) (hvalid : r.validate P = .ok ())
    (hlive : request = .cleanup → now < r.expiresAtUnixSeconds) : t'.plans[key]? = some r := by
  cases hc with
  | planned _ hfree => exact Maps.get_insert_of_free _ _ hfree hr
  | swept hcleanup => exact ((cleaned_of_cleanup hcleanup).plans key r).mpr ⟨hr, hvalid, hlive rfl⟩
  | _ => exact hr

theorem Change.locator_stays (hc : Change P now request t t') {key : ItemKey} (hr : t.locators[key]? = some r)
    (hlive : request = .cleanup → ∀ plan, t.plans[key]? = some plan → now < plan.expiresAtUnixSeconds) :
    t'.locators[key]? = some r := by
  cases hc with
  | located _ _ _ _ hfree => exact Maps.get_insert_of_free _ _ hfree hr
  | swept hcleanup => exact ((cleaned_of_cleanup hcleanup).locators key r).mpr ⟨hr, hlive rfl⟩
  | _ => exact hr

theorem Change.receipt_stays (hc : Change P now request t t')
    {r : ReplicaReceiptRecord} (hr : t.receipts[key]? = some r) (hvalid : r.validate P = .ok ())
    (hplan : request = .cleanup → ∀ plan, t.plans[key.item]? = some plan → now < plan.expiresAtUnixSeconds)
    (hlive : request = .cleanup → now < r.receipt.content.expiresAtUnixSeconds) :
    t'.receipts[key]? = some r := by
  cases hc with
  | received _ _ _ _ hfree _ => exact Maps.get_insert_of_free _ _ hfree hr
  | swept hcleanup =>
    exact ((cleaned_of_cleanup hcleanup).receipts key r).mpr ⟨hr, hplan rfl, hvalid, hlive rfl⟩
  | _ => exact hr

def PlanLive (now : Nat) (key : ItemKey) (t : ReplicationTables) : Prop :=
  ∀ plan, t.plans[key]? = some plan → now < plan.expiresAtUnixSeconds

def ReceiptLive (now : Nat) (key : ReceiptKey) (t : ReplicationTables) : Prop :=
  ∀ r, t.receipts[key]? = some r → now < r.receipt.content.expiresAtUnixSeconds

def CopyLive (now : Nat) (key : ReceiptKey) (t : ReplicationTables) : Prop :=
  (inbound t key).Holds True (fun c => now < c.storedReceipt.content.expiresAtUnixSeconds)
    (fun d => now < d.deleteReceipt.content.expiresAtUnixSeconds)

/-- At every cleanup among the later calls the records in question have not expired. -/
def LiveThrough (P : Primitives) (L : MailboxReplicationLedger) (before later : List Timed)
    (live : Nat → ReplicationTables → Prop) : Prop :=
  ∀ mid call rest, later = mid ++ call :: rest → call.request = .cleanup →
    live call.now ((L.service P).after (before ++ mid))

/-- What every change keeps, as long as nothing of it has expired, is still there. -/
theorem stays_since {I : ReplicationTables → Prop} {live : Nat → ReplicationTables → Prop}
    (h : I ((L.service P).after before))
    (hstep : ∀ now request t t', Change P now request t t' → Kept P t →
      (request = .cleanup → live now t) → I t → I t')
    (hlive : LiveThrough P L before later live) : I ((L.service P).after (before ++ later)) := by
  refine Service.since h ?_
  intro mid call rest hsplit hmid
  have hserve : ((L.service P).serve call ((L.service P).after (before ++ mid))).2 =
      (L.serve P call ((L.service P).after (before ++ mid))).2 := rfl
  rw [hserve]
  rcases L.serve_cases call ((L.service P).after (before ++ mid)) with hsame | hchange
  · rw [hsame]
    exact hmid
  · exact hstep _ _ _ _ hchange (L.after_kept _) (hlive mid call rest hsplit) hmid

theorem plan_since {key : ItemKey} {r : ReplicationPlanRecord} (h : ((L.service P).after before).plans[key]? = some r)
    (hlive : LiveThrough P L before later fun now => PlanLive now key) :
    ((L.service P).after (before ++ later)).plans[key]? = some r := by
  refine stays_since (I := fun t : ReplicationTables => t.plans[key]? = some r) h ?_ hlive
  intro now request t t' hc hkept hlive hr
  exact hc.plan_stays hr (hkept.plan key r hr).1 fun hcleanup => hlive hcleanup r hr

theorem locator_since {key : ItemKey} (h : ((L.service P).after before).locators[key]? = some r)
    (hlive : LiveThrough P L before later fun now => PlanLive now key) :
    ((L.service P).after (before ++ later)).locators[key]? = some r := by
  refine stays_since (I := fun t : ReplicationTables => t.locators[key]? = some r) h ?_ hlive
  intro now request t t' hc _ hlive hr
  exact hc.locator_stays hr hlive

theorem receipt_since {r : ReplicaReceiptRecord} (h : ((L.service P).after before).receipts[key]? = some r)
    (hlive : LiveThrough P L before later fun now t => PlanLive now key.item t ∧ ReceiptLive now key t) :
    ((L.service P).after (before ++ later)).receipts[key]? = some r := by
  refine stays_since (I := fun t : ReplicationTables => t.receipts[key]? = some r) h ?_ hlive
  intro now request t t' hc hkept hlive hr
  exact hc.receipt_stays hr (hkept.receipt key r hr).1 (fun hcleanup => (hlive hcleanup).1)
    fun hcleanup => (hlive hcleanup).2 r hr

theorem inbound_since {A : ReplicaInboundCommitRecord → Prop} {B : ReplicaInboundDeletedRecord → Prop}
    (h : (inbound ((L.service P).after before) key).Holds False A B)
    (hpass : ∀ c d, d.storedReceiptId = c.storedReceipt → d.transportIdentity = c.transportIdentity → A c → B d)
    (hlive : LiveThrough P L before later fun now => CopyLive now key) :
    (inbound ((L.service P).after (before ++ later)) key).Holds False A B := by
  refine holds_since (w := (inbound · key)) (R := inboundRules P key)
    (fun calls call => L.serve_inbound call (L.after_exclusive calls) key)
    (fun _ c d hd => hpass c d hd.1 hd.2) (fun mid call rest hsplit => .unless fun hcleanup => ?_) h
  exact Place.Holds.mono (hlive mid call rest hsplit hcleanup) (fun _ => Nat.not_le.mpr) fun _ => Nat.not_le.mpr

theorem planRecord_later {built : ReplicationPlanRecord}
    (h : planRecord P put binding salt requested required now = .ok built)
    (hlive : now' < built.expiresAtUnixSeconds) :
    planRecord P put binding salt requested required now' = .ok { built with createdAtUnixSeconds := now' } := by
  obtain ⟨envelope, hrequest, hdecode, hvalid, rfl⟩ := planRecord_eq_ok.mp h
  refine planRecord_eq_ok.mpr ⟨envelope, hrequest, hdecode, ?_, rfl⟩
  simp only [ReplicationPlanRecord.validate, ok_iff, ensure_eq_ok] at hvalid ⊢
  obtain ⟨_, hput, e, he, hversion, hmailbox, hitem, hdigest, hbinding, hsalt, hrequested, hrequired, _,
    hexpires⟩ := hvalid
  exact ⟨(), hput, e, he, hversion, hmailbox, hitem, hdigest, hbinding, hsalt, hrequested, hrequired, hlive, hexpires⟩

theorem ensurePlan_again {built record : ReplicationPlanRecord} (hkept : Kept P t)
    (hbuilt : planRecord P put binding salt requested required now = .ok built)
    (h : t.plans[put.itemKey P]? = some record) (hsame : samePlan record built)
    (hlive : now' < record.expiresAtUnixSeconds) :
    L.ensurePlan P put binding salt requested required now' t = .ok ((.alreadyPresent, record.intoPublic), t) := by
  have hdecode : record.decode P = .ok record := validated_eq_ok.mpr ⟨(hkept.plan _ record h).1, rfl⟩
  have hlogical : samePlan record { built with createdAtUnixSeconds := now' } := hsame
  obtain ⟨_, _, _, _, _, _, _, hexpires⟩ := hsame
  rw [hexpires] at hlive
  have hkey : ReplicationPlanRecord.itemKey { built with createdAtUnixSeconds := now' } = put.itemKey P := by
    obtain ⟨_, _, _, _, rfl⟩ := planRecord_eq_ok.mp hbuilt
    rfl
  simp only [ensurePlan, bind_of_ok (planRecord_later hbuilt hlive), hkey, h, bind_of_ok hdecode]
  exact bind_of_ok (ensure_of hlogical) _

theorem ensureReplicaSetLocator_again {record : ReplicaSetLocatorRecord}
    (hkept : Kept P t) (hvalid : (locatorRecord plan commitmentId storeKeys now).validate = .ok ())
    (hplan : t.plans[(⟨plan.mailboxId, plan.itemId⟩ : ItemKey)]? = some durable)
    (hneeds : Plans plan storeKeys durable)
    (h : t.locators[(⟨plan.mailboxId, plan.itemId⟩ : ItemKey)]? = some record)
    (hsame : sameLocator record (locatorRecord plan commitmentId storeKeys now))
    (hlive : now' < plan.expiresAtUnixSeconds) :
    L.ensureReplicaSetLocator P plan commitmentId storeKeys now' t = .ok (record.intoPublic, t) := by
  have hlater : (locatorRecord plan commitmentId storeKeys now').decode =
      .ok (locatorRecord plan commitmentId storeKeys now') := by
    refine validated_eq_ok.mpr ⟨?_, rfl⟩
    simp only [ReplicaSetLocatorRecord.validate, ensure_eq_ok] at hvalid ⊢
    obtain ⟨hversion, hbinding, hcommitment, _, hkeys⟩ := hvalid
    exact ⟨hversion, hbinding, hcommitment, hlive, hkeys⟩
  have hdecode : durable.decode P = .ok durable := validated_eq_ok.mpr ⟨(hkept.plan _ durable hplan).1, rfl⟩
  have hdecode' : record.decode = .ok record := validated_eq_ok.mpr ⟨(hkept.locator _ record h).1, rfl⟩
  have hneeds' : durable.dispatchBinding = (locatorRecord plan commitmentId storeKeys now').dispatchBinding ∧
      durable.expiresAtUnixSeconds = (locatorRecord plan commitmentId storeKeys now').expiresAtUnixSeconds ∧
      durable.requiredReceipts ≤ (locatorRecord plan commitmentId storeKeys now').storeKeys.length := hneeds
  have hlogical : sameLocator record (locatorRecord plan commitmentId storeKeys now') := hsame
  have hkey : (locatorRecord plan commitmentId storeKeys now').itemKey = ⟨plan.mailboxId, plan.itemId⟩ := rfl
  simp only [ensureReplicaSetLocator, bind_of_ok hlater, hkey, hplan, h, okOr]
  rw [bind_of_ok rfl, bind_of_ok hdecode, bind_of_ok (ensure_of hneeds')]
  simp only [bind_of_ok hdecode', bind_of_ok (ensure_of hlogical)]
  rfl

theorem recordReceipt_again {record : ReplicaReceiptRecord} (hkept : Kept P t)
    (hrecord : receiptRecord P put binding transport storeKey response now = .ok record)
    (h : t.receipts[(⟨put.itemKey P, storeKey⟩ : ReceiptKey)]? = some record)
    (hplan : t.plans[put.itemKey P]? = some durable)
    (hmatch : durable.requestDigest = record.requestDigest ∧ durable.dispatchBinding = record.dispatchBinding) :
    L.recordReceipt P put binding transport storeKey response now t = .ok (record.intoPublic, t) := by
  have hdecode : durable.decode P = .ok durable := validated_eq_ok.mpr ⟨(hkept.plan _ durable hplan).1, rfl⟩
  have hdecode' : record.decode P = .ok record := validated_eq_ok.mpr ⟨(hkept.receipt _ record h).1, rfl⟩
  simp only [recordReceipt, bind_of_ok hrecord, (of_receiptRecord hrecord).2.2.2, hplan, h, okOr]
  rw [bind_of_ok rfl, bind_of_ok hdecode, bind_of_ok (ensure_of hmatch)]
  simp only [bind_of_ok hdecode']
  rfl

theorem recordInboundCommit_again (hkept : Kept P t)
    (hvalid : (inboundCommitRecord P prepared transport application now).validate P = .ok ())
    (h : (inbound t (copyKey P prepared)).Holds False (CommittedAs P prepared transport application)
      (DeletedAs prepared transport)) (now' : Nat) :
    L.recordInboundCommit P prepared transport application now' t = .ok ((), t) := by
  have hrecord : (inboundCommitRecord P prepared transport application now').decode P =
      .ok (inboundCommitRecord P prepared transport application now') :=
    validated_eq_ok.mpr ⟨hvalid, rfl⟩
  have hkey : (inboundCommitRecord P prepared transport application now').receiptKey = copyKey P prepared := rfl
  simp only [recordInboundCommit, bind_of_ok hrecord, hkey]
  rcases cases_of_holds h with ⟨c, hdeleted, hcommit, hc⟩ | ⟨d, hdeleted, hd⟩
  · have hdecode : c.decode P = .ok c := validated_eq_ok.mpr ⟨(hkept.inboundCommit _ c hcommit).1, rfl⟩
    have hsame : c.sameLogicalRecord (inboundCommitRecord P prepared transport application now') := by
      rw [hc]
      exact ⟨rfl, rfl, rfl, rfl, rfl, rfl, rfl⟩
    simp only [hdeleted, hcommit, bind_of_ok hdecode, bind_of_ok (ensure_of hsame)]
    rfl
  · obtain ⟨hdvalid, hdkey⟩ := hkept.inboundDeleted _ d hdeleted
    have hdecode : d.decode P = .ok d := validated_eq_ok.mpr ⟨hdvalid, rfl⟩
    have hstore : d.expectedStoreKey = prepared.expectedStoreKey := congrArg (·.storeKey) hdkey
    have hsame : d.transportIdentity = transport ∧ d.expectedStoreKey = prepared.expectedStoreKey ∧
        d.storedReceiptId = prepared.storedReceipt := ⟨hd.2, hstore, hd.1⟩
    simp only [hdeleted, bind_of_ok hdecode, bind_of_ok (storedReceiptId_of_validate hvalid)]
    exact bind_of_ok (ensure_of hsame) _

theorem deletedRecord_later (h : deletedRecord P pending deleted now = .ok built) (now' : Nat) :
    deletedRecord P pending deleted now' = .ok { built with recordedAtUnixSeconds := now' } := by
  obtain ⟨receipt, deletion, hreceipt, hverify, hdeletion, hvalid, rfl⟩ := deletedRecord_eq_ok.mp h
  exact deletedRecord_eq_ok.mpr ⟨receipt, deletion, hreceipt, hverify, hdeletion, hvalid, rfl⟩

theorem markInboundDeleted_again (hkept : Kept P t) (hbuilt : deletedRecord P pending deleted now = .ok built)
    (h : (inbound t built.receiptKey).Holds False (fun _ => False) (·.sameLogicalRecord built))
    (now' : Nat) : L.markInboundDeleted P pending deleted now' t = .ok ((), t) := by
  rcases cases_of_holds h with ⟨_, _, _, hnot⟩ | ⟨d, hdeleted, hd⟩
  · exact hnot.elim
  · have hdecode : d.decode P = .ok d := validated_eq_ok.mpr ⟨(hkept.inboundDeleted _ d hdeleted).1, rfl⟩
    have hsame : d.sameLogicalRecord { built with recordedAtUnixSeconds := now' } := hd
    have hkey : ReplicaInboundDeletedRecord.receiptKey { built with recordedAtUnixSeconds := now' } =
        built.receiptKey := rfl
    simp only [markInboundDeleted, bind_of_ok (deletedRecord_later hbuilt now'), hkey, hdeleted, bind_of_ok hdecode]
    exact bind_of_ok (ensure_of hsame) _

def Request.Live (P : Primitives) (now : Nat) (t : ReplicationTables) : Request → Prop
  | .ensurePlan request .. => PlanLive now (request.itemKey P) t
  | .ensureReplicaSetLocator plan _ _ => PlanLive now ⟨plan.mailboxId, plan.itemId⟩ t
  | .recordReceipt request _ _ storeKey _ =>
    PlanLive now (request.itemKey P) t ∧ ReceiptLive now ⟨request.itemKey P, storeKey⟩ t
  | .recordInboundCommit prepared _ _ => CopyLive now (copyKey P prepared) t
  | .markInboundDeleted pending _ => ∀ deletion, pending.request.deletion = some deletion →
      CopyLive now ⟨⟨pending.request.mailboxId P, deletion.1⟩, pending.expectedStoreKey⟩ t
  | .markAttempt .. => True
  | .cleanup => True

def Answer.Recorded : Answer → Prop
  | .attempt _ => False
  | .cleanup _ => False
  | _ => True

def Answer.Again : Answer → Answer → Prop
  | .plan _ p, again => again = .plan .alreadyPresent p
  | answer, again => again = answer

/-- When a repeated call is taken for a repeat: a plan and a locator are asked for again before the plan
expires, and a receipt carries the time at which it was recorded. -/
def Repeatable (P : Primitives) (t : ReplicationTables) (now : Nat) : Request → Prop
  | .ensurePlan request .. => ∀ r, t.plans[request.itemKey P]? = some r → now < r.expiresAtUnixSeconds
  | .ensureReplicaSetLocator plan _ _ => now < plan.expiresAtUnixSeconds
  | .recordReceipt request _ _ storeKey _ =>
    ∀ r, t.receipts[(⟨request.itemKey P, storeKey⟩ : ReceiptKey)]? = some r → r.recordedAtUnixSeconds = now
  | _ => True

/-- A call that was answered with a recorded result, repeated before what it is about is cleaned up, is
answered with that result and changes nothing. -/
theorem serve_again (hanswer : (L.service P).answer before ⟨now, request⟩ = .ok answer) (hrecorded : answer.Recorded)
    (hlive : LiveThrough P L (before ++ [⟨now, request⟩]) later fun now t => request.Live P now t)
    (hrepeat : Repeatable P ((L.service P).after (before ++ [⟨now, request⟩] ++ later)) now' request) :
    ∃ again, answer.Again again ∧
      (L.service P).serve ⟨now', request⟩ ((L.service P).after (before ++ [⟨now, request⟩] ++ later)) =
        (.ok again, (L.service P).after (before ++ [⟨now, request⟩] ++ later)) := by
  have hfirst : L.transaction P now request ((L.service P).after before) =
      .ok (answer, (L.service P).after (before ++ [⟨now, request⟩])) := by
    rw [Service.after_concat]
    exact of_commit_eq_ok hanswer
  have hkept : Kept P ((L.service P).after (before ++ [⟨now, request⟩] ++ later)) := L.after_kept _
  cases request with
  | ensurePlan request binding salt requested required =>
    obtain ⟨r, hcall, rfl⟩ := answered_eq_ok.mp hfirst
    obtain ⟨-, built, record, hbuilt, hat, hpublic, hsame⟩ := ensurePlan_returns hcall
    have hnow := plan_since hat hlive
    have hrun := ensurePlan_again (L := L) hkept hbuilt hnow hsame (hrepeat record hnow)
    refine ⟨.plan .alreadyPresent r.2, rfl, commit_of_ok (answered_eq_ok.mpr ⟨_, hrun, ?_⟩)⟩
    rw [hpublic]
  | ensureReplicaSetLocator plan commitmentId storeKeys =>
    obtain ⟨r, hcall, rfl⟩ := answered_eq_ok.mp hfirst
    obtain ⟨-, durable, record, hvalid, hplan, hneeds, hat, rfl, hsame⟩ := ensureReplicaSetLocator_returns hcall
    have hrun := ensureReplicaSetLocator_again (L := L) hkept hvalid (plan_since hplan hlive) hneeds
      (locator_since hat hlive) hsame hrepeat
    exact ⟨_, rfl, commit_of_ok (answered_eq_ok.mpr ⟨_, hrun, rfl⟩)⟩
  | recordReceipt request binding transport storeKey response =>
    obtain ⟨r, hcall, rfl⟩ := answered_eq_ok.mp hfirst
    obtain ⟨-, record, durable, hrecord, hat, rfl, hplan, hmatch⟩ := recordReceipt_returns hcall
    have hnow := receipt_since hat hlive
    have hplan' := plan_since hplan fun mid call rest hsplit hcleanup =>
      (hlive mid call rest hsplit hcleanup).1
    -- the time of the repeat is the time of the record
    obtain rfl : now = now' := (of_receiptRecord hrecord).2.2.1.symm.trans (hrepeat record hnow)
    have hrun := recordReceipt_again (L := L) hkept hrecord hnow hplan' hmatch
    exact ⟨_, rfl, commit_of_ok (answered_eq_ok.mpr ⟨_, hrun, rfl⟩)⟩
  | markAttempt plan retrySeconds =>
    obtain ⟨_, _, rfl⟩ := answered_eq_ok.mp hfirst
    exact hrecorded.elim
  | recordInboundCommit prepared transport application =>
    obtain ⟨u, hcall, rfl⟩ := answered_eq_ok.mp hfirst
    obtain ⟨-, hvalid, hplace⟩ := recordInboundCommit_returns hcall
    have hnow := inbound_since hplace (fun c d hr ht hc => ?_) hlive
    · have hrun := recordInboundCommit_again (L := L) hkept hvalid hnow now'
      exact ⟨.done, rfl, commit_of_ok (answered_eq_ok.mpr ⟨(), hrun, rfl⟩)⟩
    · rw [hc] at hr ht
      exact ⟨hr, ht⟩
  | markInboundDeleted pending response =>
    obtain ⟨u, hcall, rfl⟩ := answered_eq_ok.mp hfirst
    obtain ⟨-, built, hbuilt, hplace⟩ := markInboundDeleted_returns hcall
    have hcopy : LiveThrough P L (before ++ [⟨now, .markInboundDeleted pending response⟩]) later
        fun now => CopyLive now built.receiptKey := by
      intro mid call rest hsplit hcleanup
      obtain ⟨_, deletion, _, _, hdeletion, _, rfl⟩ := deletedRecord_eq_ok.mp hbuilt
      exact hlive mid call rest hsplit hcleanup deletion hdeletion
    have hnow := inbound_since hplace (fun _ _ _ _ hc => hc.elim) hcopy
    have hrun := markInboundDeleted_again (L := L) hkept hbuilt hnow now'
    exact ⟨.done, rfl, commit_of_ok (answered_eq_ok.mpr ⟨(), hrun, rfl⟩)⟩
  | cleanup =>
    obtain ⟨_, _, rfl⟩ := answered_eq_ok.mp hfirst
    exact hrecorded.elim

end Kilogram.Mailbox.MailboxReplicationLedger
