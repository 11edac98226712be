import Kilogram.Mailbox.LedgerSteps

/-!
# Commits, deletions and repeated calls of the client ledger

A deletion is offered and recorded only for an item whose commit was recorded before with the same
receipt.
-/

namespace Kilogram.Mailbox.MailboxClientLedger
open Std Handover
open Except (ensure_eq_ok ensure_of ok_iff pure_eq_ok bind_of_ok okOr)
variable {P : Primitives} {L : MailboxClientLedger} {now now' : Nat} {t t' : ClientTables}
  {calls before later : List Timed} {key : ItemKey} {put : MailboxPutRequest}
  {response : MailboxPutResponse} {storeKey serviceKey binding commitmentId application : Id}
  {storeKeys : List Id} {required : Nat} {receipts : List (Id × MailboxStoredReceipt)}
  {prepared : PreparedInboundItem} {del : MailboxDeleteRequest} {deleted : MailboxDeleteResponse}
  {receipt : MailboxStoredReceipt} {request : Request} {answer : Answer}

/-- A call before has recorded the commit of the item with this receipt. -/
def CommittedBefore (P : Primitives) (L : MailboxClientLedger) (calls : List Timed) (key : ItemKey)
    (storeKey : Id) (receipt : MailboxStoredReceipt) : Prop :=
  ∃ now prepared application,
    (L.service P).Answered calls ⟨now, .recordInboundCommit prepared application⟩ (.ok .done) ∧
      prepared.mailboxId P = key.mailboxId ∧ prepared.itemId = key.itemId ∧
      prepared.expectedStoreKey = storeKey ∧ prepared.storedReceipt = receipt

theorem CommittedBefore.concat (h : CommittedBefore P L calls key storeKey receipt) (call : Timed) :
    CommittedBefore P L (calls ++ [call]) key storeKey receipt := by
  obtain ⟨now, prepared, application, hanswered, hitem⟩ := h
  exact ⟨now, prepared, application, hanswered.concat call, hitem⟩

theorem inbound_committed (L : MailboxClientLedger) (calls : List Timed) (key : ItemKey) :
    (inbound ((L.service P).after calls) key).Holds True
      (fun c => CommittedBefore P L calls key c.expectedStoreKey c.storedReceipt)
      (fun d => CommittedBefore P L calls key d.expectedStoreKey d.storedReceiptId) := by
  refine holds_history (w := (inbound · key)) (R := inboundRules P key)
    (A := fun calls c => CommittedBefore P L calls key c.expectedStoreKey c.storedReceipt)
    (B := fun calls d => CommittedBefore P L calls key d.expectedStoreKey d.storedReceiptId)
    (place_eq_absent.mpr ⟨by simp [service, ClientTables.empty], by simp [service, ClientTables.empty]⟩)
    (fun calls call => L.serve_inbound call (L.after_kept calls) key) (fun _ call _ hc => hc.concat call)
    (fun _ call _ hd => hd.concat call) ?_ ?_ calls
  · rintro calls ⟨now, _⟩ _ hmoved ⟨hkey, prepared, application, rfl, rfl⟩
    refine ⟨now, prepared, application, ?_, congrArg ItemKey.mailboxId hkey, congrArg ItemKey.itemId hkey, rfl, rfl⟩
    rw [← commit_done (L.recordInboundCommit P prepared application now)
      fun hsame => hmoved (congrArg (inbound · key) hsame.symm)]
    exact Service.answered_last calls _
  · rintro _ _ c d ⟨hreceipt, hstore⟩ hc
    rw [hreceipt, hstore]
    exact hc

theorem of_firstDelete {address : MailboxAddress} {cap : MailboxReadCapability}
    {l : List (ItemKey × InboundCommitRecord)} {request : MailboxDeleteRequest}
    (h : firstDelete P address cap l = .ok (some request)) :
    ∃ key record, (key, record) ∈ l ∧ key.mailboxId = address.mailboxId P ∧
      request.mailboxId P = address.mailboxId P ∧
      request.deletion = some (record.itemId, record.storedReceipt) := by
  induction l with
  | nil => exact absurd (pure_eq_ok.mp h) (by simp)
  | cons entry rest ih =>
    obtain ⟨key, record⟩ := entry
    unfold firstDelete at h
    split_ifs at h with hkey
    · obtain ⟨k, r, hmem, hr⟩ := ih h
      exact ⟨k, r, .tail _ hmem, hr⟩
    · simp only [ok_iff, decode_eq_ok, Checked.context_eq_ok, Option.some.injEq,
        MailboxReadCapability.authorizeDelete, MailboxReadCapability.authorize, MailboxDeleteRequest.new] at h
      obtain ⟨_, ⟨_, rfl⟩, id, hid, _, ⟨_, _, _, _, rfl⟩, _, ⟨_, _, rfl⟩, rfl⟩ := h
      obtain rfl := MailboxStoredReceipt.receiptId_eq_ok hid
      exact ⟨key, _, List.mem_cons_self, not_not.mp hkey, rfl, rfl⟩

theorem pendingDelete_committed (L : MailboxClientLedger) (calls : List Timed) {address : MailboxAddress}
    {cap : MailboxReadCapability} {request : MailboxDeleteRequest}
    (h : pendingDelete P address cap ((L.service P).after calls) = .ok (some request)) :
    ∃ itemId receipt storeKey, request.deletion = some (itemId, receipt) ∧
      CommittedBefore P L calls ⟨request.mailboxId P, itemId⟩ storeKey receipt := by
  simp only [pendingDelete, ok_iff] at h
  obtain ⟨_, _, h⟩ := h
  obtain ⟨key, record, hmem, hmailbox, hrequest, hdeletion⟩ := of_firstDelete h
  have hat := TreeMap.mem_toList_iff_getElem?_eq_some.mp hmem
  have hkept := L.after_kept (P := P) calls
  have hcommitted := L.inbound_committed (P := P) calls key
  have hplace : inbound ((L.service P).after calls) key = .first record := hkept.inbound.place_of_first hat
  rw [hplace] at hcommitted
  obtain rfl := (hkept.commit key record hat).2
  refine ⟨record.itemId, record.storedReceipt, record.expectedStoreKey, hdeletion, ?_⟩
  rw [hrequest, ← hmailbox]
  exact hcommitted

theorem deletion_committed (L : MailboxClientLedger) (calls : List Timed) {record : DeletedInboundRecord}
    (h : ((L.service P).after calls).deletedInbound[key]? = some record) :
    CommittedBefore P L calls key record.expectedStoreKey record.storedReceiptId := by
  have hcommitted := L.inbound_committed (P := P) calls key
  have hplace : inbound ((L.service P).after calls) key = .second record := place_eq_second.mpr h
  rw [hplace] at hcommitted
  exact hcommitted

/-- Nothing that is recorded of the item has expired. -/
def Live (P : Primitives) (now : Nat) (key : ItemKey) (t : ClientTables) : Prop :=
  (outbound t key).Holds True (fun p => ¬ EnvelopeExpired P now p)
      (fun r => now < r.expiresAtUnixSeconds) ∧
    (inbound t key).Holds True (fun c => now < c.storedReceipt.content.expiresAtUnixSeconds)
      (fun d => now < d.deleteReceipt.content.expiresAtUnixSeconds)

/-- No cleanup among the later calls finds anything of the item expired. -/
def LiveThrough (P : Primitives) (L : MailboxClientLedger) (before later : List Timed) (key : ItemKey) : Prop :=
  ∀ mid call rest, later = mid ++ call :: rest → call.request = .cleanup →
    Live P call.now key ((L.service P).after (before ++ mid))

theorem outbound_since {A : PendingOutboundRecord → Prop} {B : DurableOutboundRecord → Prop}
    (h : (outbound ((L.service P).after before) key).Holds False A B)
    (hpass : ∀ p r, r.requestDigest = p.request → r.expectedServiceStoreKey = p.expectedStoreKey → A p → B r)
    (hlive : LiveThrough P L before later key) :
    (outbound ((L.service P).after (before ++ later)) key).Holds False A B := by
  refine holds_since (w := (outbound · key)) (R := outboundRules P)
    (fun calls call => L.serve_outbound call (L.after_kept calls) key)
    (fun _ p r hr => hpass p r hr.1 hr.2) (fun mid call rest hsplit => .unless fun hcleanup => ?_) h
  exact (hlive mid call rest hsplit hcleanup).1.mono (fun _ hp => hp) fun _ => Nat.not_le.mpr

theorem inbound_since {A : InboundCommitRecord → Prop} {B : DeletedInboundRecord → Prop}
    (h : (inbound ((L.service P).after before) key).Holds False A B)
    (hpass : ∀ c d, d.storedReceiptId = c.storedReceipt → d.expectedStoreKey = c.expectedStoreKey → A c → B d)
    (hlive : LiveThrough P L before later key) :
    (inbound ((L.service P).after (before ++ later)) key).Holds False A B := by
  refine holds_since (w := (inbound · key)) (R := inboundRules P key)
    (fun calls call => L.serve_inbound call (L.after_kept calls) key)
    (fun _ c d hd => hpass c d hd.1 hd.2) (fun mid call rest hsplit => .unless fun hcleanup => ?_) h
  exact (hlive mid call rest hsplit hcleanup).2.mono (fun _ => Nat.not_le.mpr) fun _ => Nat.not_le.mpr

theorem enqueueOutbound_again (hkept : Kept P t) (hvalid : put.validate P = .ok ())
    (h : (outbound t (put.itemKey P)).Holds False (QueuedAs put storeKey) (StoredAs put storeKey))
    (htime : ∀ p, t.pendingOutbound[put.itemKey P]? = some p → p.queuedAtUnixSeconds = now) :
    ∃ outcome, (outcome = .alreadyPending ∨ outcome = .alreadyStored) ∧
      L.enqueueOutbound P put storeKey now t = .ok (outcome, t) := by
  have hrecord : (pendingRecord put storeKey now).decode P = .ok (pendingRecord put storeKey now) :=
    validated_eq_ok.mpr ⟨validate_pendingRecord.mpr hvalid, rfl⟩
  have hkey : (pendingRecord put storeKey now).itemKey P = put.itemKey P := rfl
  simp only [enqueueOutbound, bind_of_ok hrecord, hkey]
  rcases cases_of_holds h with ⟨p, hstored, hpending, hp⟩ | ⟨r, hstored, hr⟩
  · have hsame : p = pendingRecord put storeKey now := by
      rw [← htime p hpending]
      exact hp
    refine ⟨.alreadyPending, Or.inl rfl, ?_⟩
    simp only [hstored, hpending, if_pos hsame]
    rfl
  · have hdecode : r.decode P = .ok r := validated_eq_ok.mpr ⟨hkept.stored _ r hstored, rfl⟩
    have hsame : r.requestDigest = (pendingRecord put storeKey now).request ∧
        r.expectedServiceStoreKey = storeKey := hr
    refine ⟨.alreadyStored, Or.inr rfl, ?_⟩
    simp only [hstored, bind_of_ok hdecode, if_pos hsame]
    rfl

theorem storedRecord_later {built : StoredOutboundReceipt}
    (h : storedRecord P put response storeKey now = .ok built) (now' : Nat) :
    storedRecord P put response storeKey now' = .ok { built with recordedAtUnixSeconds := now' } := by
  obtain ⟨receipt, hreceipt, hverify, hvalid, rfl⟩ := storedRecord_eq_ok.mp h
  exact storedRecord_eq_ok.mpr ⟨receipt, hreceipt, hverify, hvalid, rfl⟩

theorem markOutboundStored_again {record built : StoredOutboundReceipt} (hkept : Kept P t)
    (hbuilt : storedRecord P put response storeKey now = .ok built)
    (hsame : record.sameLogicalRecord built)
    (h : (outbound t (put.itemKey P)).Holds False (fun _ => False) (· = .https record)) (now' : Nat) :
    L.markOutboundStored P put response storeKey now' t = .ok (record, t) := by
  rcases cases_of_holds h with ⟨_, _, _, hnot⟩ | ⟨_, hstored, rfl⟩
  · exact hnot.elim
  · have hdecode : DurableOutboundRecord.decode P (.https record) = .ok (.https record) :=
      validated_eq_ok.mpr ⟨hkept.stored _ _ hstored, rfl⟩
    have hlogical : record.sameLogicalRecord { built with recordedAtUnixSeconds := now' } := hsame
    simp only [markOutboundStored, bind_of_ok (storedRecord_later hbuilt now'),
      hkept.outbound.first_of_second hstored, hstored, okOr]
    rw [bind_of_ok rfl, bind_of_ok hdecode]
    exact bind_of_ok (ensure_of hlogical) _

theorem checkReceipts_later (r : ReplicatedOutboundCommit) (now' : Nat)
    (l : List ReplicatedOutboundReceipt) (transports : List Id) :
    ReplicatedOutboundCommit.checkReceipts P { r with recordedAtUnixSeconds := now' } l transports =
      r.checkReceipts P l transports := by
  induction l generalizing transports with
  | nil => rfl
  | cons evidence rest ih => simp only [ReplicatedOutboundCommit.checkReceipts, ih]

theorem validate_later {r : ReplicatedOutboundCommit} (h : r.validate P = .ok ())
    (hlive : now' < r.expiresAtUnixSeconds) :
    ReplicatedOutboundCommit.validate P { r with recordedAtUnixSeconds := now' } = .ok () := by
  simp only [ReplicatedOutboundCommit.validate, ok_iff, ensure_eq_ok, checkReceipts_later] at h ⊢
  obtain ⟨_, ⟨hversion, hbinding, hcommitment, hrequired, hreceipts, hlength, hkeys, _, hchain⟩, hcheck⟩ := h
  exact ⟨(), ⟨hversion, hbinding, hcommitment, hrequired, hreceipts, hlength, hkeys, hlive, hchain⟩, hcheck⟩

theorem replicatedRecord_later {built : ReplicatedOutboundCommit}
    (h : replicatedRecord P put serviceKey binding commitmentId storeKeys required receipts now =
      .ok built) (hlive : now' < built.expiresAtUnixSeconds) :
    replicatedRecord P put serviceKey binding commitmentId storeKeys required receipts now' =
      .ok { built with recordedAtUnixSeconds := now' } := by
  simp only [replicatedRecord, ok_iff, decode_eq_ok] at h ⊢
  obtain ⟨_, hrequest, envelope, hdecode, _, hkeys, _, hreceipts, hvalid, rfl⟩ := h
  exact ⟨_, hrequest, envelope, hdecode, _, hkeys, _, hreceipts, validate_later hvalid hlive, rfl⟩

theorem markOutboundReplicated_again {record built : ReplicatedOutboundCommit} (hkept : Kept P t)
    (hbuilt : replicatedRecord P put serviceKey binding commitmentId storeKeys required receipts now =
      .ok built) (hsame : record.sameLogicalRecord built)
    (h : (outbound t (put.itemKey P)).Holds False (fun _ => False) (· = .exactVolunteer record))
    (hlive : now' < record.expiresAtUnixSeconds) :
    L.markOutboundReplicated P put serviceKey binding commitmentId storeKeys required receipts now' t =
      .ok (record, t) := by
  rcases cases_of_holds h with ⟨_, _, _, hnot⟩ | ⟨_, hstored, rfl⟩
  · exact hnot.elim
  · have hdecode : DurableOutboundRecord.decode P (.exactVolunteer record) = .ok (.exactVolunteer record) :=
      validated_eq_ok.mpr ⟨hkept.stored _ _ hstored, rfl⟩
    have hlogical : record.sameLogicalRecord { built with recordedAtUnixSeconds := now' } := hsame
    obtain ⟨_, _, _, _, _, _, _, _, _, _, hexpires⟩ := hsame
    rw [hexpires] at hlive
    simp only [markOutboundReplicated, bind_of_ok (replicatedRecord_later hbuilt hlive),
      hkept.outbound.first_of_second hstored, hstored, okOr]
    rw [bind_of_ok rfl, bind_of_ok hdecode]
    exact bind_of_ok (ensure_of hlogical) _

theorem recordInboundCommit_again (hkept : Kept P t)
    (hvalid : (commitRecord P prepared application now).validate P = .ok ())
    (h : (inbound t ⟨prepared.mailboxId P, prepared.itemId⟩).Holds False
      (CommittedAs P prepared application) (DeletedAs prepared)) (now' : Nat) :
    L.recordInboundCommit P prepared application now' t = .ok ((), t) := by
  have hrecord : (commitRecord P prepared application now').decode P =
      .ok (commitRecord P prepared application now') :=
    validated_eq_ok.mpr ⟨hvalid, rfl⟩
  have hkey : (commitRecord P prepared application now').itemKey = ⟨prepared.mailboxId P, prepared.itemId⟩ := rfl
  simp only [recordInboundCommit, bind_of_ok hrecord, hkey]
  rcases cases_of_holds h with ⟨c, hdeleted, hcommit, hc⟩ | ⟨d, hdeleted, hd⟩
  · have hdecode : c.decode P = .ok c := validated_eq_ok.mpr ⟨(hkept.commit _ c hcommit).1, rfl⟩
    have hsame : c.sameLogicalRecord (commitRecord P prepared application now') := by
      rw [hc]
      exact ⟨rfl, rfl, rfl, rfl, rfl, rfl⟩
    simp only [hdeleted, hcommit, bind_of_ok hdecode, bind_of_ok (ensure_of hsame)]
    rfl
  · have hdecode : d.decode P = .ok d := validated_eq_ok.mpr ⟨hkept.deletion _ d hdeleted, rfl⟩
    have hsame : d.storedReceiptId = prepared.storedReceipt ∧ d.expectedStoreKey = prepared.expectedStoreKey := hd
    simp only [hdeleted, bind_of_ok hdecode, bind_of_ok (storedReceiptId_of_validate hvalid)]
    exact bind_of_ok (ensure_of hsame) _

theorem deletedRecord_later {built : DeletedInboundRecord}
    (h : deletedRecord P del deleted storeKey now = .ok built) (now' : Nat) :
    deletedRecord P del deleted storeKey now' = .ok { built with recordedAtUnixSeconds := now' } := by
  obtain ⟨receipt, deletion, hreceipt, hverify, hdeletion, hvalid, rfl⟩ := deletedRecord_eq_ok.mp h
  exact deletedRecord_eq_ok.mpr ⟨receipt, deletion, hreceipt, hverify, hdeletion, hvalid, rfl⟩

theorem markInboundDeleted_again {built : DeletedInboundRecord} (hkept : Kept P t)
    (hbuilt : deletedRecord P del deleted storeKey now = .ok built)
    (h : (inbound t built.itemKey).Holds False (fun _ => False) (·.sameLogicalRecord built)) (now' : Nat) :
    L.markInboundDeleted P del deleted storeKey now' t = .ok ((), t) := by
  rcases cases_of_holds h with ⟨_, _, _, hnot⟩ | ⟨d, hdeleted, hd⟩
  · exact hnot.elim
  · have hdecode : d.decode P = .ok d := validated_eq_ok.mpr ⟨hkept.deletion _ d hdeleted, rfl⟩
    have hsame : d.sameLogicalRecord { built with recordedAtUnixSeconds := now' } := hd
    have hkey : DeletedInboundRecord.itemKey { built with recordedAtUnixSeconds := now' } = built.itemKey := rfl
    simp only [markInboundDeleted, bind_of_ok (deletedRecord_later hbuilt now'), hkey, hdeleted, bind_of_ok hdecode]
    exact bind_of_ok (ensure_of hsame) _

def Request.itemKey (P : Primitives) : Request → Option ItemKey
  | .enqueueOutbound request _ => some (request.itemKey P)
  | .markOutboundStored request _ _ => some (request.itemKey P)
  | .markOutboundReplicated request .. => some (request.itemKey P)
  | .recordInboundCommit prepared _ => some ⟨prepared.mailboxId P, prepared.itemId⟩
  | .markInboundDeleted request _ _ => request.deletion.map fun d => ⟨request.mailboxId P, d.1⟩
  | .cleanup => none

/-- The answer says that the item is recorded as asked. -/
def Answer.Recorded : Answer → Prop
  | .enqueued outcome => outcome ≠ .conflict ∧ outcome ≠ .capacityExceeded
  | .cleanup _ => False
  | _ => True

def Answer.Again : Answer → Answer → Prop
  | .enqueued _, again => again = .enqueued .alreadyPending ∨ again = .enqueued .alreadyStored
  | answer, again => again = answer

/-- When a repeated call is taken for a repeat: an upload that is still pending carries the time at
which it was queued, and an exact replication is repeated before the item expires. -/
def Repeatable (P : Primitives) (t : ClientTables) (now : Nat) : Request → Prop
  | .enqueueOutbound request _ => ∀ p, t.pendingOutbound[request.itemKey P]? = some p → p.queuedAtUnixSeconds = now
  | .markOutboundReplicated request .. => ∀ r, t.storedOutbound[request.itemKey P]? = some r →
      now < r.expiresAtUnixSeconds
  | _ => True

/-- A call that was answered with a recorded result, repeated before the item is cleaned up, is
answered with that result and changes nothing. -/
theorem serve_again (hanswer : (L.service P).answer before ⟨now, request⟩ = .ok answer) (hrecorded : answer.Recorded)
    (hlive : ∀ key, request.itemKey P = some key → LiveThrough P L (before ++ [⟨now, request⟩]) later key)
    (hrepeat : Repeatable P ((L.service P).after (before ++ [⟨now, request⟩] ++ later)) now' request) :
    ∃ again, answer.Again again ∧
      (L.service P).serve ⟨now', request⟩ ((L.service P).after (before ++ [⟨now, request⟩] ++ later)) =
        (.ok again, (L.service P).after (before ++ [⟨now, request⟩] ++ later)) := by
  have hfirst : L.transaction P now request ((L.service P).after before) =
      .ok (answer, (L.service P).after (before ++ [⟨now, request⟩])) := by
    rw [Service.after_concat]
    exact of_commit_eq_ok hanswer
  have hkept : Kept P ((L.service P).after (before ++ [⟨now, request⟩] ++ later)) := L.after_kept _
  cases request with
  | enqueueOutbound request storeKey =>
    obtain ⟨outcome, hcall, rfl⟩ := answered_eq_ok.mp hfirst
    obtain ⟨-, hvalid, hplace⟩ := enqueueOutbound_returns hcall
    have hnow := outbound_since (hplace hrecorded.1 hrecorded.2) (fun p r hr hk hp => ?_) (hlive _ rfl)
    · obtain ⟨outcome', hout, hrun⟩ := enqueueOutbound_again hkept hvalid hnow hrepeat
      refine ⟨.enqueued outcome', ?_, commit_of_ok (answered_eq_ok.mpr ⟨outcome', hrun, rfl⟩)⟩
      exact hout.imp (congrArg Answer.enqueued) (congrArg Answer.enqueued)
    · rw [hp] at hr hk
      exact ⟨hr, hk⟩
  | markOutboundStored request response storeKey =>
    obtain ⟨record, hcall, rfl⟩ := answered_eq_ok.mp hfirst
    obtain ⟨-, ⟨built, hbuilt, hsame⟩, hplace⟩ := markOutboundStored_returns hcall
    have hnow := outbound_since hplace (fun _ _ _ _ hp => hp.elim) (hlive _ rfl)
    have hrun := markOutboundStored_again (L := L) hkept hbuilt hsame hnow now'
    exact ⟨.stored record, rfl, commit_of_ok (answered_eq_ok.mpr ⟨record, hrun, rfl⟩)⟩
  | markOutboundReplicated request serviceKey binding commitmentId storeKeys required receipts =>
    obtain ⟨record, hcall, rfl⟩ := answered_eq_ok.mp hfirst
    obtain ⟨-, ⟨built, hbuilt, hsame⟩, hplace⟩ := markOutboundReplicated_returns hcall
    have hnow := outbound_since hplace (fun _ _ _ _ hp => hp.elim) (hlive _ rfl)
    have hexpires : now' < record.expiresAtUnixSeconds := by
      rcases cases_of_holds hnow with ⟨_, _, _, hnot⟩ | ⟨_, hstored, rfl⟩
      · exact hnot.elim
      · exact hrepeat _ hstored
    have hrun := markOutboundReplicated_again (L := L) hkept hbuilt hsame hnow hexpires
    exact ⟨.replicated record, rfl, commit_of_ok (answered_eq_ok.mpr ⟨record, hrun, rfl⟩)⟩
  | recordInboundCommit prepared application =>
    obtain ⟨u, hcall, rfl⟩ := answered_eq_ok.mp hfirst
    obtain ⟨-, hvalid, hplace⟩ := recordInboundCommit_returns hcall
    have hnow := inbound_since hplace (fun c d hr hk hc => ?_) (hlive _ rfl)
    · have hrun := recordInboundCommit_again (L := L) hkept hvalid hnow now'
      exact ⟨.done, rfl, commit_of_ok (answered_eq_ok.mpr ⟨(), hrun, rfl⟩)⟩
    · rw [hc] at hr hk
      exact ⟨hr, hk⟩
  | markInboundDeleted request response storeKey =>
    obtain ⟨u, hcall, rfl⟩ := answered_eq_ok.mp hfirst
    obtain ⟨-, built, hbuilt, hplace⟩ := markInboundDeleted_returns hcall
    have hkey : Request.itemKey P (.markInboundDeleted request response storeKey) = some built.itemKey := by
      obtain ⟨_, deletion, _, _, hdeletion, _, rfl⟩ := deletedRecord_eq_ok.mp hbuilt
      simp only [Request.itemKey, hdeletion]
      rfl
    have hnow := inbound_since hplace (fun _ _ _ _ hc => hc.elim) (hlive _ hkey)
    have hrun := markInboundDeleted_again (L := L) hkept hbuilt hnow now'
    exact ⟨.done, rfl, commit_of_ok (answered_eq_ok.mpr ⟨(), hrun, rfl⟩)⟩
  | cleanup =>
    obtain ⟨report, _, rfl⟩ := answered_eq_ok.mp hfirst
    exact hrecorded.elim

end Kilogram.Mailbox.MailboxClientLedger
