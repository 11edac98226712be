import Kilogram.Mailbox.LedgerRepeats
import Kilogram.Mailbox.ReplicationRepeats
import Kilogram.Mailbox.Retry

/-!
# Repeated calls and deletions after commits

What holds of both ledgers after any calls.
-/

namespace Kilogram.Mailbox
open Std Handover MailboxClientLedger
variable {P : Primitives}

/-- What was completed stays as it is until a cleanup after its expiry. -/
theorem MailboxClientLedger.stored_since {L : MailboxClientLedger}
    {before later : List MailboxClientLedger.Timed} {key : ItemKey} {record : DurableOutboundRecord}
    (h : ((L.service P).after before).storedOutbound[key]? = some record)
    (hlive : ∀ call ∈ later, call.request = .cleanup → call.now < record.expiresAtUnixSeconds) :
    ((L.service P).after (before ++ later)).storedOutbound[key]? = some record := by
  refine Service.since (I := fun t : ClientTables => t.storedOutbound[key]? = some record) h ?_
  intro mid call rest hsplit hmid
  have hcall : call ∈ later := hsplit ▸ List.mem_append_right mid (.head _)
  have hplace : outbound ((L.service P).after (before ++ mid)) key = .second record := place_eq_second.mpr hmid
  have hmoves := L.serve_outbound call (L.after_kept (P := P) (before ++ mid)) key
  have hholds := hmoves.holds (Z := False) (A := fun _ => False) (B := (· = record))
    (fun h => h.elim) (fun _ _ _ h => h.elim) (fun a ha _ => absurd (hplace.symm.trans ha) (by simp)) ?_
    (holds_of_second hmid rfl)
  · rcases cases_of_holds hholds with ⟨_, _, _, hnot⟩ | ⟨_, hstored, rfl⟩
    · exact hnot.elim
    · exact hstored
  · rintro r hr ⟨hcleanup, hexpired⟩
    obtain rfl := Place.second.inj (hplace.symm.trans hr)
    exact Nat.not_le.mpr (hlive call hcall hcleanup) hexpired

/-- What the two ledgers keep over any calls. -/
structure LedgersKeep (P : Primitives) (L : MailboxClientLedger) (R : MailboxReplicationLedger) : Prop where
  exclusive : ∀ calls (key : ItemKey), ((L.service P).after calls).pendingOutbound[key]? = none ∨
    ((L.service P).after calls).storedOutbound[key]? = none
  moves : ∀ calls call key, Moves (outboundRules P call) (outbound ((L.service P).after calls) key)
    (outbound ((L.service P).after (calls ++ [call])) key)
  stays : ∀ before later (key : ItemKey) (record : DurableOutboundRecord),
    ((L.service P).after before).storedOutbound[key]? = some record →
    (∀ call ∈ later, call.request = .cleanup → call.now < record.expiresAtUnixSeconds) →
    ((L.service P).after (before ++ later)).storedOutbound[key]? = some record
  offersCommitted : ∀ calls address cap request,
    pendingDelete P address cap ((L.service P).after calls) = .ok (some request) →
    ∃ itemId receipt storeKey, request.deletion = some (itemId, receipt) ∧
      CommittedBefore P L calls ⟨request.mailboxId P, itemId⟩ storeKey receipt
  deletesCommitted : ∀ calls (key : ItemKey) (record : DeletedInboundRecord),
    ((L.service P).after calls).deletedInbound[key]? = some record →
    CommittedBefore P L calls key record.expectedStoreKey record.storedReceiptId
  offersForCommitted : ∀ calls address cap itemId storeKey pending,
    MailboxReplicationLedger.pendingInboundDeleteFor P address cap itemId storeKey
      ((R.service P).after calls) = .ok (some pending) →
    MailboxReplicationLedger.Offered P R calls pending
  offersAllCommitted : ∀ calls address cap limit found,
    MailboxReplicationLedger.pendingInboundDeletes P address cap limit ((R.service P).after calls) =
      .ok found → ∀ pending ∈ found, MailboxReplicationLedger.Offered P R calls pending
  offersOneCommitted : ∀ calls address cap pending,
    MailboxReplicationLedger.pendingInboundDelete P address cap ((R.service P).after calls) =
      .ok (some pending) → MailboxReplicationLedger.Offered P R calls pending
  replicaDeletesCommitted : ∀ calls (key : ReceiptKey) (record : ReplicaInboundDeletedRecord),
    ((R.service P).after calls).inboundDeleted[key]? = some record →
    MailboxReplicationLedger.CommittedBefore P R calls key record.transportIdentity
      record.storedReceiptId
  repeats : ∀ before later now now' request answer,
    (L.service P).answer before ⟨now, request⟩ = .ok answer → answer.Recorded →
    (∀ key, request.itemKey P = some key → LiveThrough P L (before ++ [⟨now, request⟩]) later key) →
    Repeatable P ((L.service P).after (before ++ [⟨now, request⟩] ++ later)) now' request →
    ∃ again, answer.Again again ∧
      (L.service P).serve ⟨now', request⟩ ((L.service P).after (before ++ [⟨now, request⟩] ++ later)) =
        (.ok again, (L.service P).after (before ++ [⟨now, request⟩] ++ later))
  replicaRepeats : ∀ before later now now' request answer,
    (R.service P).answer before ⟨now, request⟩ = .ok answer → answer.Recorded →
    MailboxReplicationLedger.LiveThrough P R (before ++ [⟨now, request⟩]) later
      (fun now t => request.Live P now t) →
    MailboxReplicationLedger.Repeatable P ((R.service P).after (before ++ [⟨now, request⟩] ++ later))
      now' request →
    ∃ again, answer.Again again ∧
      (R.service P).serve ⟨now', request⟩ ((R.service P).after (before ++ [⟨now, request⟩] ++ later)) =
        (.ok again, (R.service P).after (before ++ [⟨now, request⟩] ++ later))

/-- An outbound item is pending or stored, and only moves from the first to the second, until it has
expired and is cleaned up. A deletion is offered or recorded only after the commit was recorded with
the same receipt. A call with the same arguments is answered with what was recorded and changes
nothing, as long as it is repeatable and nothing it is about was cleaned up. -/
theorem ledgers_repeat_and_delete_after_commit (L : MailboxClientLedger) (R : MailboxReplicationLedger) :
    LedgersKeep P L R where
  exclusive calls key := (L.after_kept calls).outbound key
  moves calls call key := by
    rw [Service.after_concat]
    exact L.serve_outbound call (L.after_kept calls) key
  stays _ _ _ _ h hlive := stored_since h hlive
  offersCommitted calls _ _ _ h := L.pendingDelete_committed calls h
  deletesCommitted calls _ _ h := L.deletion_committed calls h
  offersForCommitted calls _ _ _ _ _ h := R.pendingInboundDeleteFor_offered calls h
  offersAllCommitted calls _ _ _ _ h := R.pendingInboundDeletes_offered calls h
  offersOneCommitted calls _ _ _ h := R.pendingInboundDelete_offered calls h
  replicaDeletesCommitted calls _ _ h := R.deletion_committed calls h
  repeats _ _ _ _ _ _ hanswer hrecorded hlive hrepeat := serve_again hanswer hrecorded hlive hrepeat
  replicaRepeats _ _ _ _ _ _ hanswer hrecorded hlive hrepeat :=
    MailboxReplicationLedger.serve_again hanswer hrecorded hlive hrepeat

section Samples
open MailboxReplicationLedger (sampleRequest sampleLedger sampleSetup sampleReceipt sampleResponse)

def sampleClient : MailboxClientLedger := ⟨⟨4, 4, 4⟩, by decide⟩

/-- An upload is queued, then stored; queueing it again finds it stored. -/
theorem ledgers_repeat_and_delete_after_commit_sample :
    (sampleClient.service samplePrimitives).answer [] ⟨10, .enqueueOutbound sampleRequest 1⟩ =
        .ok (.enqueued .created) ∧
      ∃ again, (Answer.enqueued .created).Again again ∧
        (sampleClient.service samplePrimitives).serve ⟨30, .enqueueOutbound sampleRequest 1⟩
            ((sampleClient.service samplePrimitives).after
              ([] ++ [⟨10, .enqueueOutbound sampleRequest 1⟩] ++
                [⟨20, .markOutboundStored sampleRequest (sampleResponse 1) 1⟩])) =
          (.ok again, (sampleClient.service samplePrimitives).after
            ([] ++ [⟨10, .enqueueOutbound sampleRequest 1⟩] ++
              [⟨20, .markOutboundStored sampleRequest (sampleResponse 1) 1⟩])) := by
  have hanswer : (sampleClient.service samplePrimitives).answer []
      ⟨10, .enqueueOutbound sampleRequest 1⟩ = .ok (.enqueued .created) := by
    decide +kernel
  have hgone : ((sampleClient.service samplePrimitives).after ([] ++ [⟨10, .enqueueOutbound sampleRequest 1⟩] ++
        [⟨20, .markOutboundStored sampleRequest (sampleResponse 1) 1⟩])).pendingOutbound[
          sampleRequest.itemKey samplePrimitives]? = none := by
    decide +kernel
  refine ⟨hanswer, ?_⟩
  refine (ledgers_repeat_and_delete_after_commit (P := samplePrimitives) sampleClient
    sampleLedger).repeats [] _ 10 30 _ _ hanswer ⟨by decide, by decide⟩ ?_ ?_
  · intro key _ mid call rest hsplit hcleanup
    have hcall : call ∈ [⟨20, .markOutboundStored sampleRequest (sampleResponse 1) 1⟩] :=
      hsplit ▸ List.mem_append_right mid (.head _)
    rw [List.mem_singleton.mp hcall] at hcleanup
    simp at hcleanup
  · intro p hp
    cases hgone.symm.trans hp

/-- The same upload queued a second later is a conflict, and the same receipt recorded a second later
is refused. -/
theorem later_repeat_conflicts :
    (sampleClient.service samplePrimitives).answer [] ⟨10, .enqueueOutbound sampleRequest 1⟩ =
        .ok (.enqueued .created) ∧
      (sampleClient.service samplePrimitives).answer [⟨10, .enqueueOutbound sampleRequest 1⟩]
          ⟨11, .enqueueOutbound sampleRequest 1⟩ = .ok (.enqueued .conflict) ∧
      (sampleLedger.service samplePrimitives).answer sampleSetup (sampleReceipt 12 101 1) =
        .ok (.receipt ⟨101, 1, ⟨⟨Mailbox.version, 1, 3, 10, 1, [7], 20, 620⟩, sampleSignature⟩, 12⟩) ∧
      (sampleLedger.service samplePrimitives).answer (sampleSetup ++ [sampleReceipt 12 101 1])
          (sampleReceipt 13 101 1) = .error (.failed "mailbox replica receipt replay conflicts") := by
  decide +kernel

end Samples
end Kilogram.Mailbox
