import Kilogram.Mailbox.ReplicationSteps

/-!
# Retrying replication

The plan that is tried next is one that is not satisfied and was not tried lately.
-/

namespace Kilogram.Mailbox.MailboxReplicationLedger
open Std
open Except (ensure_eq_ok ensure_of ok_iff bind_of_ok)
open List (filter_cons_of_neg filter_cons_of_pos mem_cons_self mem_filter mem_map)
open TreeMap (mem_toList_iff_getElem?_eq_some)
variable {P : Primitives} {L : MailboxReplicationLedger} {now retrySeconds : Nat}
  {t : ReplicationTables} {key : ItemKey} {plan : ReplicationPlanRecord}

def receiptsAt (t : ReplicationTables) (key : ItemKey) : List ReplicaReceiptRecord :=
  (t.receipts.toList.filter fun e => e.1.item = key).map Prod.snd

def BelongsTo (P : Primitives) (plan : ReplicationPlanRecord) (k : ReceiptKey) (r : ReplicaReceiptRecord) : Prop :=
  r.validate P = .ok () ∧ r.requestDigest = plan.requestDigest ∧
    r.dispatchBinding = plan.dispatchBinding ∧ k = r.receiptKey

theorem Kept.belongsTo (h : Kept P t) (hplan : t.plans[key]? = some plan) {k : ReceiptKey}
    {r : ReplicaReceiptRecord} (hr : (k, r) ∈ t.receipts.toList) (hk : k.item = key) :
    BelongsTo P plan k r := by
  obtain ⟨hvalid, hkey, plan', hplan', hdigest, hbinding⟩ := h.receipt k r (mem_toList_iff_getElem?_eq_some.mp hr)
  rw [hk, hplan] at hplan'
  cases hplan'
  exact ⟨hvalid, hdigest, hbinding, hkey.symm⟩

theorem receiptsOf_eq {l : List (ReceiptKey × ReplicaReceiptRecord)}
    (h : ∀ k r, (k, r) ∈ l → k.item = key → BelongsTo P plan k r) :
    receiptsOf P key plan l = .ok ((l.filter fun e => e.1.item = key).map Prod.snd) := by
  induction l with
  | nil => rfl
  | cons entry rest ih =>
    obtain ⟨k, r⟩ := entry
    have hrest := ih fun k r hr => h k r (.tail _ hr)
    unfold receiptsOf
    by_cases hk : k.item = key
    · obtain ⟨hvalid, hmatch⟩ := h k r (.head _) hk
      have hdecode : r.decode P = .ok r := validated_eq_ok.mpr ⟨hvalid, rfl⟩
      rw [if_pos hk, bind_of_ok hdecode, bind_of_ok (ensure_of hmatch),
        bind_of_ok hrest, filter_cons_of_pos (by simpa using hk)]
      rfl
    · rw [if_neg hk, hrest, filter_cons_of_neg (by simpa using hk)]

theorem countReceipts_of_distinct {l : List (ReceiptKey × ReplicaReceiptRecord)} {transports : List Id}
    (h : ∀ k r, (k, r) ∈ l → k.item = key → BelongsTo P plan k r)
    (hnodup : ((l.filter fun e => e.1.item = key).map fun e => e.2.transportIdentity).Nodup)
    (hnew : ∀ e ∈ l, e.1.item = key → e.2.transportIdentity ∉ transports) :
    countReceipts P key plan l transports = .ok (l.filter fun e => e.1.item = key).length := by
  induction l generalizing transports with
  | nil => rfl
  | cons entry rest ih =>
    obtain ⟨k, r⟩ := entry
    have hbelong : ∀ k r, (k, r) ∈ rest → k.item = key → BelongsTo P plan k r := fun k r hr => h k r (.tail _ hr)
    unfold countReceipts
    by_cases hk : k.item = key
    · rw [filter_cons_of_pos (by simpa using hk), List.map_cons, List.nodup_cons] at hnodup
      obtain ⟨hvalid, hdigest, hbinding, hkey⟩ := h k r (.head _) hk
      have hdecode : r.decode P = .ok r := validated_eq_ok.mpr ⟨hvalid, rfl⟩
      have hrest : countReceipts P key plan rest (r.transportIdentity :: transports) =
          .ok (rest.filter fun e => e.1.item = key).length := by
        refine ih hbelong hnodup.2 fun e he hitem => ?_
        intro hmem
        rcases List.mem_cons.mp hmem with heq | hmem
        · rw [← heq] at hnodup
          exact hnodup.1 (mem_map.mpr ⟨e, mem_filter.mpr ⟨he, by simpa using hitem⟩, rfl⟩)
        · exact hnew e (.tail _ he) hitem hmem
      rw [if_pos hk, bind_of_ok hdecode, bind_of_ok (ensure_of
        ⟨hdigest, hbinding, hkey, hnew (k, r) (.head _) hk⟩), bind_of_ok hrest,
        filter_cons_of_pos (by simpa using hk)]
      rfl
    · rw [filter_cons_of_neg (by simpa using hk)] at hnodup ⊢
      rw [if_neg hk]
      exact ih hbelong hnodup fun e he => hnew e (.tail _ he)

theorem Kept.nodup_transports (h : Kept P t) (key : ItemKey) :
    ((t.receipts.toList.filter fun e => e.1.item = key).map fun e => e.2.transportIdentity).Nodup := by
  -- two receipts of the item from one transport are one receipt
  refine List.Nodup.map_on ?_ ((Maps.nodup_toList t.receipts).filter _)
  rintro ⟨j, q⟩ hq ⟨k, r⟩ hr htransport
  rw [mem_filter, mem_toList_iff_getElem?_eq_some] at hq hr
  have hitem : j.item = k.item := by
    rw [of_decide_eq_true hq.2, of_decide_eq_true hr.2]
  obtain rfl := h.distinct j k q r hq.1 hr.1 hitem htransport
  rw [Option.some.inj (hq.1.symm.trans hr.1)]

theorem Kept.countReceipts_eq (h : Kept P t) (hplan : t.plans[key]? = some plan) :
    countReceipts P key plan t.receipts.toList [] = .ok (receiptsAt t key).length := by
  rw [countReceipts_of_distinct (fun k r hr hk => h.belongsTo hplan hr hk) (h.nodup_transports key) (by simp),
    receiptsAt, List.length_map]

/-- The stores that a receipt of the item has to come from, where stores were committed to. -/
def Qualifies (t : ReplicationTables) (key : ItemKey) (r : ReplicaReceiptRecord) : Prop :=
  ∀ locator ∈ t.locators[key]?, r.storeKey ∈ locator.storeKeys
  deriving Decidable

theorem Kept.readLocator_eq (h : Kept P t) (hplan : t.plans[key]? = some plan) :
    readLocator plan t.locators[key]? = .ok ((t.locators[key]?).map (·.intoPublic)) := by
  cases hlocator : t.locators[key]? with
  | none => rfl
  | some locator =>
    obtain ⟨hvalid, plan', hplan', hmatch⟩ := h.locator key locator hlocator
    cases hplan.symm.trans hplan'
    have hdecode : locator.decode = .ok locator := validated_eq_ok.mpr ⟨hvalid, rfl⟩
    simp only [readLocator]
    rw [bind_of_ok hdecode, bind_of_ok (ensure_of hmatch)]
    rfl

def statusAt (t : ReplicationTables) (key : ItemKey) (plan : ReplicationPlanRecord) : MailboxReplicationStatus :=
  ⟨plan.intoPublic, ((receiptsAt t key).map (·.intoPublic)).mergeSort fun a b =>
    decide (a.storeKey ≤ b.storeKey), (t.locators[key]?).map (·.intoPublic)⟩

theorem Kept.status_eq (h : Kept P t) (hplan : t.plans[key]? = some plan) :
    status P key.mailboxId key.itemId t = .ok (some (statusAt t key plan)) := by
  have hdecode : plan.decode P = .ok plan := validated_eq_ok.mpr ⟨(h.plan key plan hplan).1, rfl⟩
  have hreceipts := receiptsOf_eq (P := P) (l := t.receipts.toList) fun k r hr hk => h.belongsTo hplan hr hk
  unfold status
  rw [show t.plans[(⟨key.mailboxId, key.itemId⟩ : ItemKey)]? = some plan from hplan]
  simp only
  rw [bind_of_ok hdecode, bind_of_ok (h.readLocator_eq hplan), bind_of_ok hreceipts]
  rfl

theorem isSatisfied_iff : (statusAt t key plan).isSatisfied ↔
      plan.requiredReceipts ≤ ((receiptsAt t key).filter (Qualifies t key ·)).length := by
  have hperm := List.mergeSort_perm ((receiptsAt t key).map (·.intoPublic))
    fun a b => decide (a.storeKey ≤ b.storeKey)
  have hcount : (statusAt t key plan).qualifyingReceipts.length =
      ((receiptsAt t key).filter (Qualifies t key ·)).length := by
    unfold MailboxReplicationStatus.qualifyingReceipts statusAt
    cases hlocator : t.locators[key]? with
    | none =>
      have hall : ∀ r ∈ receiptsAt t key, decide (Qualifies t key r) = true := by
        intro r _
        simp [Qualifies, hlocator]
      rw [List.filter_eq_self.mpr hall]
      simp
    | some locator =>
      have hsame : (receiptsAt t key).filter (Qualifies t key ·) =
          (receiptsAt t key).filter fun r => r.storeKey ∈ locator.storeKeys := by
        refine List.filter_congr fun r _ => ?_
        simp [Qualifies, hlocator]
      have hlength := (hperm.filter fun r => decide (r.storeKey ∈ locator.storeKeys)).length_eq
      rw [List.filter_map, List.length_map] at hlength
      rw [hsame]
      exact hlength
  unfold MailboxReplicationStatus.isSatisfied
  rw [hcount]
  rfl

/-- The plan has not expired, its receipts are too few, and the last attempt is long enough ago. -/
def Due (t : ReplicationTables) (now retrySeconds : Nat) (e : ItemKey × ReplicationPlanRecord) : Prop :=
  now < e.2.expiresAtUnixSeconds ∧ (receiptsAt t e.1).length < e.2.requiredReceipts ∧
    ∀ last ∈ t.attempts[e.1]?, retrySeconds ≤ now - last
  deriving Decidable

theorem Kept.duePlans_eq (h : Kept P t) {l : List (ItemKey × ReplicationPlanRecord)}
    (hl : ∀ e ∈ l, t.plans[e.1]? = some e.2) :
    duePlans P t now retrySeconds l = .ok ((l.filter (Due t now retrySeconds ·)).map Prod.snd) := by
  induction l with
  | nil => rfl
  | cons entry rest ih =>
    obtain ⟨key, plan⟩ := entry
    have hplan := hl (key, plan) (.head _)
    have hrest := ih fun e he => hl e (.tail _ he)
    have hdecode : plan.decode P = .ok plan := validated_eq_ok.mpr ⟨(h.plan key plan hplan).1, rfl⟩
    unfold duePlans
    rw [bind_of_ok hdecode, bind_of_ok (h.countReceipts_eq hplan), hrest]
    -- the three tests of the source, in their order
    split_ifs with hexpired henough hlate
    · rw [filter_cons_of_neg]
      simp [Due, Nat.not_lt.mpr hexpired]
    · rw [filter_cons_of_neg]
      simp [Due, Nat.not_lt.mpr henough]
    · rw [filter_cons_of_pos]
      · rfl
      · exact decide_eq_true ⟨Nat.not_le.mp hexpired, Nat.not_le.mp henough, fun last hlast => by
          simpa [Option.mem_def.mp hlast] using hlate⟩
    · rw [filter_cons_of_neg]
      intro hdue
      apply hlate
      cases hlast : t.attempts[key]? with
      | none => rfl
      | some last => exact decide_eq_true ((of_decide_eq_true hdue).2.2 last hlast)

theorem Kept.nextDue_eq (h : Kept P t) (hretry : retrySeconds ≠ 0) : nextDue P now retrySeconds t =
      .ok ((((t.plans.toList.filter (Due t now retrySeconds ·)).map Prod.snd).mergeSort
        dueBefore).head?.map (·.intoPublic)) := by
  have hdue : duePlans P t now retrySeconds t.plans.toList =
      .ok ((t.plans.toList.filter (Due t now retrySeconds ·)).map Prod.snd) :=
    h.duePlans_eq fun e he => mem_toList_iff_getElem?_eq_some.mp he
  unfold nextDue
  rw [bind_of_ok (ensure_of hretry), bind_of_ok hdue]
  rfl

def Satisfied (P : Primitives) (t : ReplicationTables) (key : ItemKey) : Prop :=
  ∃ s, status P key.mailboxId key.itemId t = .ok (some s) ∧ s.isSatisfied

def TriedLately (t : ReplicationTables) (key : ItemKey) (now retrySeconds : Nat) : Prop :=
  ∃ last, t.attempts[key]? = some last ∧ now - last < retrySeconds

theorem Kept.satisfied_iff (h : Kept P t) (hplan : t.plans[key]? = some plan) : Satisfied P t key ↔
      plan.requiredReceipts ≤ ((receiptsAt t key).filter (Qualifies t key ·)).length := by
  unfold Satisfied
  rw [h.status_eq hplan, ← isSatisfied_iff]
  simp

/-- The receipts of an item that has a locator are all from stores of the locator. -/
def FromLocator (t : ReplicationTables) : Prop :=
  ∀ (key : ItemKey) (locator : ReplicaSetLocatorRecord), t.locators[key]? = some locator →
    ∀ (k : ReceiptKey) (r : ReplicaReceiptRecord), t.receipts[k]? = some r → k.item = key →
      k.storeKey ∈ locator.storeKeys

theorem Kept.qualifies (h : Kept P t) (hfrom : FromLocator t) : ∀ r ∈ receiptsAt t key, Qualifies t key r := by
  intro r hr locator hlocator
  obtain ⟨⟨k, r'⟩, he, rfl⟩ := mem_map.mp hr
  rw [mem_filter, mem_toList_iff_getElem?_eq_some] at he
  have hmem := hfrom key locator hlocator k r' he.1 (of_decide_eq_true he.2)
  rwa [← (h.receipt k r' he.1).2.1] at hmem

/-- What is found is a plan that is not expired, not satisfied and not tried lately. -/
theorem Kept.of_nextDue_eq_some (h : Kept P t) (hretry : retrySeconds ≠ 0)
    {due : MailboxReplicationPlan} (hdue : nextDue P now retrySeconds t = .ok (some due)) :
    ∃ plan, t.plans[(⟨due.mailboxId, due.itemId⟩ : ItemKey)]? = some plan ∧ plan.intoPublic = due ∧
      now < due.expiresAtUnixSeconds ∧ ¬ Satisfied P t ⟨due.mailboxId, due.itemId⟩ ∧
      ¬ TriedLately t ⟨due.mailboxId, due.itemId⟩ now retrySeconds := by
  rw [h.nextDue_eq hretry] at hdue
  obtain ⟨plan, hhead, rfl⟩ := Option.map_eq_some_iff.mp (Except.ok.inj hdue)
  have hmem := List.mem_mergeSort.mp (List.mem_of_head? hhead)
  obtain ⟨⟨key, plan'⟩, he, rfl⟩ := mem_map.mp hmem
  rw [mem_filter, mem_toList_iff_getElem?_eq_some, decide_eq_true_eq] at he
  obtain ⟨hplan, hlive, hfew, hlate⟩ := he
  obtain rfl := (h.plan key plan' hplan).2
  refine ⟨plan', hplan, rfl, hlive, ?_, ?_⟩
  · intro hsatisfied
    have henough := (h.satisfied_iff hplan).mp hsatisfied
    exact absurd (henough.trans (List.length_filter_le _ _)) (Nat.not_le.mpr hfew)
  · rintro ⟨last, hlast, hrecent⟩
    exact absurd (hlate last hlast) (Nat.not_le.mpr hrecent)

/-- Nothing is found only if every plan is expired, satisfied or tried lately, provided that receipts
come from the stores that were committed to. -/
theorem Kept.of_nextDue_eq_none (h : Kept P t) (hretry : retrySeconds ≠ 0) (hfrom : FromLocator t)
    (hdue : nextDue P now retrySeconds t = .ok none) (hplan : t.plans[key]? = some plan) :
    plan.expiresAtUnixSeconds ≤ now ∨ Satisfied P t key ∨ TriedLately t key now retrySeconds := by
  rw [h.nextDue_eq hretry] at hdue
  have hnone := Option.map_eq_none_iff.mp (Except.ok.inj hdue)
  have hempty : (t.plans.toList.filter (Due t now retrySeconds ·)).map Prod.snd = [] := by
    have hperm := List.mergeSort_perm ((t.plans.toList.filter (Due t now retrySeconds ·)).map Prod.snd)
      dueBefore
    rw [List.head?_eq_none_iff.mp hnone] at hperm
    exact hperm.symm.eq_nil
  have hnot : ¬ Due t now retrySeconds (key, plan) := by
    intro hd
    have hmem : (key, plan) ∈ t.plans.toList.filter (Due t now retrySeconds ·) :=
      mem_filter.mpr ⟨mem_toList_iff_getElem?_eq_some.mpr hplan, decide_eq_true hd⟩
    rw [List.map_eq_nil_iff.mp hempty] at hmem
    simp at hmem
  by_cases hlive : now < plan.expiresAtUnixSeconds
  · right
    by_cases hfew : (receiptsAt t key).length < plan.requiredReceipts
    · right
      by_contra hlate
      refine hnot ⟨hlive, hfew, fun last hlast => ?_⟩
      by_contra hrecent
      exact hlate ⟨last, hlast, Nat.not_le.mp hrecent⟩
    · left
      have hall : ∀ r ∈ receiptsAt t key, decide (Qualifies t key r) = true :=
        fun r hr => decide_eq_true (h.qualifies hfrom r hr)
      rw [h.satisfied_iff hplan, List.filter_eq_self.mpr hall]
      exact Nat.not_lt.mp hfew
  · exact Or.inl (Nat.not_lt.mp hlive)

theorem retrySeconds_ne_zero {due : Option MailboxReplicationPlan}
    (h : nextDue P now retrySeconds t = .ok due) : retrySeconds ≠ 0 := by
  simp only [nextDue, ok_iff, ensure_eq_ok] at h
  obtain ⟨_, hretry, _⟩ := h
  exact hretry

theorem hasExpired_isOk {α : Type} {v : Result Unit} {r : α} (hv : v = .ok ()) (expires : α → Nat) :
    ∃ gone, hasExpired (v >>= fun _ => pure r) expires now = .ok gone :=
  ⟨decide (expires r ≤ now), hasExpired_eq_ok.mpr ⟨hv, decide_eq_true_iff⟩⟩

theorem Kept.cleanupRequired_isOk (h : Kept P t) (now : Nat) :
    ∃ required, replicationCleanupRequired P now t = .ok required := by
  obtain ⟨items, hitems⟩ : ∃ items, Maps.sweep (planExpired P now) t.plans = .ok items :=
    Maps.sweep_isOk fun k r hr => hasExpired_isOk (h.plan k r hr).1 _
  obtain ⟨receipts, hreceipts⟩ : ∃ found, Maps.anyExpired (receiptExpired P now []) t.receipts.toList = .ok found :=
    Maps.anyExpired_isOk fun k r hr => hasExpired_isOk
      (h.receipt k r (mem_toList_iff_getElem?_eq_some.mp hr)).1 _
  obtain ⟨commits, hcommits⟩ :
      ∃ found, Maps.anyExpired (inboundCommitExpired P now) t.inboundCommits.toList = .ok found :=
    Maps.anyExpired_isOk fun k r hr => hasExpired_isOk
      (h.inboundCommit k r (mem_toList_iff_getElem?_eq_some.mp hr)).1 _
  obtain ⟨deletions, hdeletions⟩ :
      ∃ found, Maps.anyExpired (inboundDeletionExpired P now) t.inboundDeleted.toList = .ok found :=
    Maps.anyExpired_isOk fun k r hr => hasExpired_isOk
      (h.inboundDeleted k r (mem_toList_iff_getElem?_eq_some.mp hr)).1 _
  unfold replicationCleanupRequired
  rw [bind_of_ok hitems, bind_of_ok hreceipts, bind_of_ok hcommits, hdeletions]
  split_ifs
  · exact ⟨true, rfl⟩
  · exact ⟨true, rfl⟩
  · exact ⟨true, rfl⟩
  · exact ⟨deletions, rfl⟩

theorem nextDue_of_inspectReadOnly {i : MailboxReplicationReadOnlyInspection}
    (h : inspectReadOnly P now retrySeconds t = .ok i) :
    nextDue P now retrySeconds t = .ok i.nextDue := by
  simp only [inspectReadOnly, ok_iff] at h
  obtain ⟨_, _, due, hdue, _, _, rfl⟩ := h
  exact hdue

theorem Kept.inspectReadOnly_isOk (h : Kept P t) (hretry : retrySeconds ≠ 0) :
    ∃ i, inspectReadOnly P now retrySeconds t = .ok i := by
  obtain ⟨required, hrequired⟩ := h.cleanupRequired_isOk now
  unfold inspectReadOnly
  rw [bind_of_ok (ensure_of hretry), bind_of_ok (h.nextDue_eq hretry), bind_of_ok hrequired]
  exact ⟨_, rfl⟩

/-- After any calls the search succeeds, and what it finds is not expired, not satisfied and not tried lately.
As long as receipts come from the stores that were committed to, it finds nothing only if every plan is one
of these. -/
theorem unsatisfied_plan_is_due (L : MailboxReplicationLedger) (calls : List Timed) (now retrySeconds : Nat) :
    (retrySeconds ≠ 0 → ∃ i, inspectReadOnly P now retrySeconds ((L.service P).after calls) = .ok i) ∧
      (∀ i, inspectReadOnly P now retrySeconds ((L.service P).after calls) = .ok i →
        nextDue P now retrySeconds ((L.service P).after calls) = .ok i.nextDue) ∧
      (FromLocator ((L.service P).after calls) → nextDue P now retrySeconds ((L.service P).after calls) = .ok none →
        ∀ key plan, ((L.service P).after calls).plans[key]? = some plan →
          plan.expiresAtUnixSeconds ≤ now ∨ Satisfied P ((L.service P).after calls) key ∨
            TriedLately ((L.service P).after calls) key now retrySeconds) ∧
      ∀ due, nextDue P now retrySeconds ((L.service P).after calls) = .ok (some due) →
        ∃ plan, ((L.service P).after calls).plans[(⟨due.mailboxId, due.itemId⟩ : ItemKey)]? = some plan ∧
          plan.intoPublic = due ∧ now < due.expiresAtUnixSeconds ∧
          ¬ Satisfied P ((L.service P).after calls) ⟨due.mailboxId, due.itemId⟩ ∧
          ¬ TriedLately ((L.service P).after calls) ⟨due.mailboxId, due.itemId⟩ now retrySeconds := by
  have hkept : Kept P ((L.service P).after calls) := L.after_kept calls
  refine ⟨fun hretry => hkept.inspectReadOnly_isOk hretry, fun i => nextDue_of_inspectReadOnly, ?_, ?_⟩
  · intro hfrom hnone key plan hplan
    exact hkept.of_nextDue_eq_none (retrySeconds_ne_zero hnone) hfrom hnone hplan
  · intro due hdue
    exact hkept.of_nextDue_eq_some (retrySeconds_ne_zero hdue) hdue

/-- What is counted are receipts that stores have signed for the item, each over its own transport. -/
structure Counted (P : Primitives) (key : ItemKey) (rs : List MailboxReplicaReceipt) : Prop where
  distinct : (rs.map (·.transportIdentity)).Nodup
  signed : ∀ r ∈ rs, r.receipt.verifySignature P = .ok () ∧ r.receipt.content.storeKey = r.storeKey ∧
    r.receipt.content.mailboxId = key.mailboxId ∧ r.receipt.content.itemId = key.itemId

theorem Counted.sublist {rs rs' : List MailboxReplicaReceipt} (h : Counted P key rs) (hsub : rs'.Sublist rs) :
    Counted P key rs' :=
  ⟨h.distinct.sublist (hsub.map _), fun r hr => h.signed r (hsub.subset hr)⟩

theorem Kept.counted (h : Kept P t) (hplan : t.plans[key]? = some plan) :
    Counted P key (statusAt t key plan).receipts := by
  have hperm : (statusAt t key plan).receipts.Perm ((receiptsAt t key).map (·.intoPublic)) := List.mergeSort_perm _ _
  refine ⟨(hperm.map _).nodup_iff.mpr ?_, fun r hr => ?_⟩
  · rw [receiptsAt, List.map_map, List.map_map]
    exact h.nodup_transports key
  · obtain ⟨_, hmem, rfl⟩ := mem_map.mp (hperm.mem_iff.mp hr)
    obtain ⟨⟨k, r⟩, he, rfl⟩ := mem_map.mp hmem
    obtain ⟨he, hk⟩ := mem_filter.mp he
    obtain ⟨hvalid, _, _, rfl⟩ := h.belongsTo hplan he (of_decide_eq_true hk)
    simp only [ReplicaReceiptRecord.validate, ok_iff, ensure_eq_ok, Checked.context_eq_ok] at hvalid
    obtain ⟨_, hsigned, _, _, _, hmailbox, hitem, hstore⟩ := hvalid
    obtain rfl : r.receiptKey.item = key := of_decide_eq_true hk
    exact ⟨hsigned, hstore, hmailbox, hitem⟩

/-- After any calls the status of an item can be read, and its receipts count one for each transport: a
plan that is satisfied is held by as many stores as it requires. -/
theorem status_counts_signed_receipts (L : MailboxReplicationLedger) (calls : List Timed) (key : ItemKey) :
    ∃ s, status P key.mailboxId key.itemId ((L.service P).after calls) = .ok s ∧
      ∀ x ∈ s, Counted P key x.qualifyingReceipts ∧ (x.isSatisfied → ∃ transports : List Id, transports.Nodup ∧
        x.plan.requiredReceipts ≤ transports.length ∧ ∀ i ∈ transports, ∃ r ∈ x.qualifyingReceipts,
          r.transportIdentity = i ∧ r.receipt.verifySignature P = .ok ()) := by
  have hkept : Kept P ((L.service P).after calls) := L.after_kept calls
  cases hplan : ((L.service P).after calls).plans[key]? with
  | none =>
    refine ⟨none, ?_, by simp⟩
    unfold status
    rw [show ((L.service P).after calls).plans[(⟨key.mailboxId, key.itemId⟩ : ItemKey)]? = none from hplan]
    rfl
  | some plan =>
    refine ⟨_, hkept.status_eq hplan, ?_⟩
    rintro x ⟨⟩
    have hcounted : Counted P key (statusAt ((L.service P).after calls) key plan).qualifyingReceipts := by
      refine (hkept.counted hplan).sublist ?_
      unfold MailboxReplicationStatus.qualifyingReceipts
      split
      · exact List.filter_sublist
      · exact List.Sublist.refl _
    refine ⟨hcounted, fun hsatisfied => ⟨_, hcounted.distinct, ?_, fun i hi => ?_⟩⟩
    · rw [List.length_map]
      exact hsatisfied
    · obtain ⟨r, hr, rfl⟩ := mem_map.mp hi
      exact ⟨r, hr, rfl, (hcounted.signed r hr).1⟩

section Samples

def sampleLedger : MailboxReplicationLedger := ⟨⟨4, 4⟩, by decide⟩

def sampleRequest : MailboxPutRequest := ⟨wireVersion, ⟨Mailbox.version, 1, 2⟩,
    ⟨⟨Mailbox.version, 3, 10, 2, 600, 1, [7]⟩, sampleSignature⟩, [7]⟩

def sampleResponse (storeKey : Id) : MailboxPutResponse :=
  .stored wireVersion true ⟨⟨Mailbox.version, storeKey, 3, 10, 1, [7], 20, 620⟩, sampleSignature⟩

def samplePlan : MailboxReplicationPlan := ⟨3, 10, sampleRequest, 5, 6, 3, 2, 600⟩

/-- A plan that needs two receipts, and the stores 1 and 2 that were committed to. -/
def sampleSetup : List Timed :=
  [⟨10, .ensurePlan sampleRequest 5 6 3 2⟩, ⟨11, .ensureReplicaSetLocator samplePlan 7 [1, 2]⟩]

def sampleReceipt (now : Nat) (transport storeKey : Id) : Timed :=
  ⟨now, .recordReceipt sampleRequest 5 transport storeKey (sampleResponse storeKey)⟩

theorem unsatisfied_plan_is_due_sample : nextDue samplePrimitives 100 60
        ((sampleLedger.service samplePrimitives).after (sampleSetup ++ [sampleReceipt 12 101 1])) =
      .ok (some samplePlan) ∧
    ∃ plan, ((sampleLedger.service samplePrimitives).after (sampleSetup ++ [sampleReceipt 12 101 1])).plans[
        (⟨3, 10⟩ : ItemKey)]? = some plan ∧ plan.intoPublic = samplePlan ∧ 100 < 600 ∧
      ¬ Satisfied samplePrimitives
        ((sampleLedger.service samplePrimitives).after (sampleSetup ++ [sampleReceipt 12 101 1])) ⟨3, 10⟩ ∧
      ¬ TriedLately ((sampleLedger.service samplePrimitives).after (sampleSetup ++ [sampleReceipt 12 101 1]))
        ⟨3, 10⟩ 100 60 := by
  have hdue : nextDue samplePrimitives 100 60
      ((sampleLedger.service samplePrimitives).after (sampleSetup ++ [sampleReceipt 12 101 1])) =
        .ok (some samplePlan) := by
    decide +kernel
  exact ⟨hdue, (unsatisfied_plan_is_due sampleLedger _ 100 60).2.2.2 samplePlan hdue⟩

def foreignCalls : List Timed := sampleSetup ++ [sampleReceipt 12 101 3, sampleReceipt 13 102 4]

/-- The plan is neither expired nor satisfied nor was it ever tried, and it is not due. -/
theorem foreign_receipts_hide_plan :
    nextDue samplePrimitives 100 60 ((sampleLedger.service samplePrimitives).after foreignCalls) = .ok none ∧
      ∃ plan, ((sampleLedger.service samplePrimitives).after foreignCalls).plans[(⟨3, 10⟩ : ItemKey)]? = some plan ∧
        ¬ plan.expiresAtUnixSeconds ≤ 100 ∧
        ¬ Satisfied samplePrimitives ((sampleLedger.service samplePrimitives).after foreignCalls) ⟨3, 10⟩ ∧
        ¬ TriedLately ((sampleLedger.service samplePrimitives).after foreignCalls) ⟨3, 10⟩ 100 60 := by
  have hplan : ((sampleLedger.service samplePrimitives).after foreignCalls).plans[(⟨3, 10⟩ : ItemKey)]? =
      some ⟨recordVersion, 3, 10, sampleRequest, sampleRequest, 5, 6, 3, 2, 10, 600⟩ := by
    decide +kernel
  have hnever : ((sampleLedger.service samplePrimitives).after foreignCalls).attempts[(⟨3, 10⟩ : ItemKey)]? =
      none := by
    decide +kernel
  refine ⟨by decide +kernel, _, hplan, by decide, ?_, ?_⟩
  · rw [(sampleLedger.after_kept foreignCalls).satisfied_iff hplan]
    decide +kernel
  · rintro ⟨last, hlast, _⟩
    cases hnever.symm.trans hlast

end Samples
end Kilogram.Mailbox.MailboxReplicationLedger
