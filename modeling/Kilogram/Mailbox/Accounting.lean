import Kilogram.Mailbox.Store

/-!
# Accounting and memory of the mailbox store

What a call can do to the tables is one of five changes.
-/

namespace Kilogram.Mailbox
open Std Relation
open Except (ensure_eq_ok bind_eq_ok pure_eq_ok)
open Maps (get_erase get_insert weight_empty)
variable {P : Primitives}

theorem StoredRecord.decode_eq_ok {r r' : StoredRecord} : r.decode P = .ok r' ↔ r.validate P = .ok () ∧ r' = r :=
  validated_eq_ok

theorem StoredTombstone.decode_eq_ok {r r' : StoredTombstone} :
    r.decode P = .ok r' ↔ r.validate P = .ok () ∧ r' = r :=
  validated_eq_ok

inductive Counter where
  | items
  | bytes
  | mailbox (id : Id)

def Counter.measure : Counter → ItemKey → StoredRecord → Nat
  | .items, _, _ => 1
  | .bytes, _, r => r.envelope.length
  | .mailbox m, k, _ => if k.mailboxId = m then 1 else 0

def MailboxStoreConfig.limit (c : MailboxStoreConfig) : Counter → Nat
  | .items => c.maxTotalItems
  | .bytes => c.maxTotalBytes
  | .mailbox _ => c.maxItemsPerMailbox

namespace Tables

def counter (t : Tables) : Counter → Nat
  | .items => t.totalItems
  | .bytes => t.totalBytes
  | .mailbox m => t.readMailboxCount m

def actual (t : Tables) (c : Counter) : Nat := Maps.weight c.measure t.items

/-- Nothing in the item table is left uncounted, and no counter is past its limit. -/
structure Bounded (config : MailboxStoreConfig) (t : Tables) : Prop where
  covers : ∀ c, t.actual c ≤ t.counter c
  within : ∀ c, t.counter c ≤ config.limit c

def Exact (t : Tables) : Prop := ∀ c, t.counter c = t.actual c

theorem readMailboxCount_write (t : Tables) (m m' : Id) (n : Nat) :
    (t.writeMailboxCount m n).readMailboxCount m' = if m = m' then n else t.readMailboxCount m' := by
  unfold writeMailboxCount readMailboxCount
  by_cases hn : n = 0
  · rw [if_pos hn, get_erase]
    split
    · exact hn.symm
    · rfl
  · rw [if_neg hn, get_insert]
    split
    · rfl
    · rfl

end Tables

theorem BlindMailboxStore.limit_le (S : BlindMailboxStore P) (c : Counter) : S.config.limit c ≤ 2 ^ 40 := by
  have h := S.valid
  simp only [MailboxStoreConfig.validate, bind_eq_ok, ensure_eq_ok] at h
  obtain ⟨_, _, _, hper, _, hitems, hbytes⟩ := h
  cases c with
  | items => exact hitems.2.trans (by decide)
  | bytes => exact hbytes.2
  | mailbox m => exact hper.2.trans (by decide)

theorem saturatingAdd_of_lt {a b : Nat} (h : a + b < 2 ^ 64) : saturatingAdd 64 a b = a + b := min_eq_left (by omega)

theorem add_le_of_saturatingAdd {a b n : Nat} (h : saturatingAdd 64 a b ≤ n) (hn : n ≤ 2 ^ 40) : a + b ≤ n := by
  unfold saturatingAdd at h
  omega

namespace BlindMailboxStore

/-- One change of the tables at a time. An expired item may be dropped without being counted out only
where `strands` holds. -/
inductive Change (S : BlindMailboxStore P) (now : Nat) (strands : Prop) (t : Tables) : Tables → Prop
  | swept : Change S now strands t (cleanup P now t).2
  | forgot {key : ItemKey} {tombstone : StoredTombstone} (hat : t.tombstones[key]? = some tombstone)
      (hexpired : tombstone.expiredAt now) :
      Change S now strands t { t with tombstones := t.tombstones.erase key }
  | stranded {key : ItemKey} {current : StoredRecord} (hstrands : strands)
      (hat : t.items[key]? = some current) (hexpired : current.expiredAt now) :
      Change S now strands t { t with items := t.items.erase key }
  | placed {key : ItemKey} {candidate : StoredRecord} {t' : Tables}
      (hvalid : candidate.validate P = .ok ())
      (hat : ∀ current, t.items[key]? = some current → current.expiredAt now)
      (hfree : t.tombstones[key]? = none)
      (hitems : ∀ k, t'.items[k]? = if key = k then some candidate else t.items[k]?)
      (htombstones : t'.tombstones = t.tombstones)
      (hcounter : ∀ c, t'.counter c = t.counter c - (t.items[key]?).elim 0 (c.measure key) + c.measure key candidate)
      (hlimit : ∀ c, c.measure key candidate ≠ 0 → t'.counter c ≤ S.config.limit c) :
      Change S now strands t t'
  | removed {key : ItemKey} {current : StoredRecord} {tombstone : StoredTombstone} {t' : Tables}
      (hat : t.items[key]? = some current) (hvalid : tombstone.validate P = .ok ())
      (hexpires : tombstone.deleteReceipt.content.expiresAtUnixSeconds = current.receipt.content.expiresAtUnixSeconds)
      (hitems : t'.items = t.items.erase key)
      (htombstones : t'.tombstones = t.tombstones.insert key tombstone)
      (hcounter : ∀ c, t'.counter c = t.counter c - c.measure key current) :
      Change S now strands t t'

variable {S : BlindMailboxStore P} {now : Nat} {strands : Prop} {t t' : Tables}

/-- There is no room for an envelope even without the item at its key. -/
def Full (S : BlindMailboxStore P) (key : ItemKey) (current : StoredRecord) (bytes : Nat) (t : Tables) : Prop :=
  S.config.maxTotalItems ≤ t.totalItems - 1 ∨ S.config.maxItemsPerMailbox ≤ t.readMailboxCount key.mailboxId - 1 ∨
    S.config.maxTotalBytes < saturatingAdd 64 (t.totalBytes - current.envelope.length) bytes
  deriving Decidable

/-- A candidate that is placed is added to counters that were `n`, and no counter that it adds to
passes its limit. -/
theorem placeCandidate_cases (S : BlindMailboxStore P) (key : ItemKey) (candidate : StoredRecord)
    (items : TreeMap ItemKey StoredRecord) (n : Counter → Nat) (t : Tables)
    (hn : ∀ m, key.mailboxId ≠ m → n (.mailbox m) = t.readMailboxCount m) :
    S.placeCandidate key candidate items (n .items) (n .bytes) (n (.mailbox key.mailboxId)) t =
        (.capacityExceeded, { t with items := items }) ∨
      ∃ t', S.placeCandidate key candidate items (n .items) (n .bytes) (n (.mailbox key.mailboxId)) t =
          (.created candidate.receipt, t') ∧
        t'.items = items.insert key candidate ∧ t'.tombstones = t.tombstones ∧
        (∀ c, t'.counter c = n c + c.measure key candidate) ∧
        ∀ c, c.measure key candidate ≠ 0 → t'.counter c ≤ S.config.limit c := by
  unfold placeCandidate
  split
  · exact .inl rfl
  · next hroom =>
    push Not at hroom
    obtain ⟨hitems, hmailbox, hbytes⟩ := hroom
    have hsum := add_le_of_saturatingAdd hbytes (S.limit_le .bytes)
    have hsaturating := saturatingAdd_of_lt (hsum.trans_lt ((S.limit_le .bytes).trans_lt (by decide)))
    have hcounter : ∀ c, Tables.counter ((Tables.writeMailboxCount
        { t with items := items.insert key candidate } key.mailboxId
        (n (.mailbox key.mailboxId) + 1)).writeMeta (n .items + 1)
        (saturatingAdd 64 (n .bytes) candidate.envelope.length)) c = n c + c.measure key candidate := by
      intro c
      cases c with
      | items => rfl
      | bytes => exact hsaturating
      | mailbox m =>
        refine (Tables.readMailboxCount_write _ _ m _).trans ?_
        by_cases hm : key.mailboxId = m
        · simp [Counter.measure, hm]
        · rw [if_neg hm, hn m hm, Counter.measure, if_neg hm]
          rfl
    refine .inr ⟨_, rfl, rfl, rfl, hcounter, fun c hc => ?_⟩
    rw [hcounter]
    cases c with
    | items => exact hitems
    | bytes => exact hsum
    | mailbox m =>
      have hm : key.mailboxId = m := by
        by_contra hm
        exact hc (if_neg hm)
      rw [← hm, Counter.measure, if_pos rfl]
      exact hmailbox

variable {key : ItemKey} {candidate : StoredRecord} {outcome : MailboxPutOutcome}
  {address : MailboxAddress} {expires : Nat} {item : StoredMailboxItem}

theorem insertCandidate_change (hvalid : candidate.validate P = .ok ())
    (hat : ∀ current, t.items[key]? = some current → current.expiredAt now)
    (hfree : t.tombstones[key]? = none) (hstrands : ∀ current, t.items[key]? = some current →
      S.Full key current candidate.envelope.length t → strands) :
    ReflTransGen (S.Change now strands) t (S.insertCandidate key candidate t.items[key]? t).2 := by
  -- the counters without the expired item
  let n (c : Counter) : Nat := t.counter c - (t.items[key]?).elim 0 (c.measure key)
  have hother : ∀ m, key.mailboxId ≠ m → n (.mailbox m) = t.readMailboxCount m := by
    intro m hm
    cases hcurrent : t.items[key]? with
    | none => simp [n, hcurrent, Tables.counter]
    | some current => simp [n, hcurrent, Tables.counter, Counter.measure, hm]
  cases hcurrent : t.items[key]? with
  | none =>
    have hn : n = t.counter := by
      funext c
      simp [n, hcurrent]
    rcases placeCandidate_cases S key candidate t.items n t hother with
      hfull | ⟨t', hplaced, hitems, htombstones, hcounter, hlimit⟩
    · rw [hn] at hfull
      rw [insertCandidate, show S.placeCandidate key candidate t.items t.totalItems t.totalBytes
        (t.readMailboxCount key.mailboxId) t = _ from hfull]
    · rw [hn] at hplaced
      rw [insertCandidate, show S.placeCandidate key candidate t.items t.totalItems t.totalBytes
        (t.readMailboxCount key.mailboxId) t = _ from hplaced]
      refine .single (.placed hvalid hat hfree (fun k => ?_) htombstones hcounter hlimit)
      rw [hitems, get_insert]
  | some current =>
    have hn : ∀ c, n c = t.counter c - c.measure key current := by
      intro c
      simp [n, hcurrent]
    have hmailbox : n (.mailbox key.mailboxId) = t.readMailboxCount key.mailboxId - 1 := by
      simp [hn, Counter.measure, Tables.counter]
    have hinsert : S.insertCandidate key candidate (some current) t =
        S.placeCandidate key candidate (t.items.erase key) (n .items) (n .bytes)
          (n (.mailbox key.mailboxId)) t := by
      rw [hmailbox, hn, hn]
      rfl
    rcases placeCandidate_cases S key candidate (t.items.erase key) n t hother with
      hfull | ⟨t', hplaced, hitems, htombstones, hcounter, hlimit⟩
    · rw [hinsert, hfull]
      refine .single (.stranded (hstrands current hcurrent ?_) hcurrent (hat current hcurrent))
      rw [← hinsert, insertCandidate, placeCandidate] at hfull
      split at hfull
      · next hroom => exact hroom
      · cases congrArg Prod.fst hfull
    · rw [hinsert, hplaced]
      refine .single (.placed hvalid hat hfree (fun k => ?_) htombstones hcounter hlimit)
      rw [hitems, get_insert, get_erase]
      split
      · rfl
      · rfl

theorem putWithoutLiveItem_changes (hvalid : candidate.validate P = .ok ())
    (hat : ∀ current, t.items[key]? = some current → current.expiredAt now)
    (h : S.putWithoutLiveItem key candidate now t.items[key]? t = .ok (outcome, t'))
    (hstrands : ∀ current, t.items[key]? = some current → (∀ x ∈ t.tombstones[key]?, x.expiredAt now) →
      S.Full key current candidate.envelope.length t → strands) :
    ReflTransGen (S.Change now strands) t t' := by
  unfold putWithoutLiveItem at h
  split at h
  · next hfree =>
    obtain ⟨rfl, rfl⟩ := Prod.mk.inj (pure_eq_ok.mp h)
    exact insertCandidate_change hvalid hat hfree fun current hat' => hstrands current hat' (by simp [hfree])
  · next tombstone htombstone =>
    simp only [bind_eq_ok, StoredTombstone.decode_eq_ok] at h
    obtain ⟨_, ⟨_, rfl⟩, h⟩ := h
    split_ifs at h with hlive
    · have hforgot : S.Change now strands t { t with tombstones := t.tombstones.erase key } := .forgot htombstone hlive
      obtain ⟨rfl, rfl⟩ := Prod.mk.inj (pure_eq_ok.mp h)
      refine .head hforgot (insertCandidate_change hvalid hat ?_ fun current hat' =>
        hstrands current hat' fun x hx => ?_)
      · rw [get_erase, if_pos rfl]
      · cases htombstone.symm.trans hx
        exact hlive
    · cases pure_eq_ok.mp h
      exact .refl

theorem putCandidate_changes (hvalid : candidate.validate P = .ok ())
    (h : S.putCandidate key candidate now t = .ok (outcome, t'))
    (hstrands : ∀ current ∈ t.items[key]?, current.expiredAt now → (∀ x ∈ t.tombstones[key]?, x.expiredAt now) →
      S.Full key current candidate.envelope.length t → strands) :
    ReflTransGen (S.Change now strands) t t' := by
  unfold putCandidate at h
  split at h
  · next hnone =>
    rw [← hnone] at h
    have hat : ∀ current, t.items[key]? = some current → current.expiredAt now :=
      fun current hcurrent => absurd (hnone.symm.trans hcurrent) (by simp)
    refine putWithoutLiveItem_changes hvalid hat h fun current hcurrent => ?_
    cases hnone.symm.trans hcurrent
  · next current hcurrent =>
    simp only [bind_eq_ok, StoredRecord.decode_eq_ok] at h
    obtain ⟨_, ⟨_, rfl⟩, h⟩ := h
    split_ifs at h with hexpired hsame
    · rw [← hcurrent] at h
      have hat : ∀ other, t.items[key]? = some other → other.expiredAt now :=
        fun other hother => Option.some.inj (hcurrent.symm.trans hother) ▸ hexpired
      exact putWithoutLiveItem_changes hvalid hat h fun other hother => hstrands other hother (hat other hother)
    all_goals
      cases pure_eq_ok.mp h
      exact .refl

theorem deleteItem_changes {receiptId : MailboxReceiptId} {outcome : DeleteOutcome}
    (h : S.deleteItem key receiptId now t = .ok (outcome, t')) :
    ReflTransGen (S.Change now strands) t t' := by
  unfold deleteItem at h
  split at h
  · next current hcurrent =>
    simp only [bind_eq_ok, StoredRecord.decode_eq_ok] at h
    obtain ⟨_, ⟨_, rfl⟩, _, _, h⟩ := h
    split_ifs at h
    iterate 2
      · cases pure_eq_ok.mp h
        exact .refl
    · simp only [bind_eq_ok, StoredTombstone.decode_eq_ok] at h
      obtain ⟨_, ⟨hvalid, rfl⟩, h⟩ := h
      cases pure_eq_ok.mp h
      refine .single (.removed hcurrent hvalid rfl rfl rfl fun c => ?_)
      cases c with
      | items => rfl
      | bytes => rfl
      | mailbox m =>
        refine (Tables.readMailboxCount_write _ _ m _).trans ?_
        by_cases hm : key.mailboxId = m
        · simp [Counter.measure, Tables.counter, hm]
        · rw [if_neg hm, Counter.measure, if_neg hm]
          rfl
  · split at h
    · cases pure_eq_ok.mp h
      exact .refl
    · simp only [bind_eq_ok] at h
      obtain ⟨_, _, h⟩ := h
      split_ifs at h
      all_goals
        cases pure_eq_ok.mp h
        exact .refl

variable {envelope : Bytes} {c : Counter} {r : StoredRecord} {items : List StoredMailboxItem}
  {call : Timed} {before : List Timed}

theorem validate_candidate {authorization : MailboxWriteAuthorization}
    (h : S.candidate address authorization envelope now = .ok candidate) :
    candidate.validate P = .ok () ∧ candidate.envelope = envelope := by
  simp only [BlindMailboxStore.candidate, StoredRecord.new, bind_eq_ok, StoredRecord.decode_eq_ok] at h
  obtain ⟨_, _, _, _, _, _, hvalid, rfl⟩ := h
  exact ⟨hvalid, rfl⟩

/-- The one call that drops an item without counting it out: a valid put to a key with an expired item and
no live tombstone, for which there is no room without that item. -/
def Strands (S : BlindMailboxStore P) (call : Timed) (t : Tables) : Prop :=
  match call.request with
  | .put address authorization envelope =>
    (S.candidate address authorization envelope call.now).isOk ∧
      (∃ current ∈ t.items[putKey (P := P) address authorization]?, current.expiredAt call.now ∧
        S.Full (putKey (P := P) address authorization) current envelope.length t) ∧
      ∀ x ∈ t.tombstones[putKey (P := P) address authorization]?, x.expiredAt call.now
  | _ => False

instance (S : BlindMailboxStore P) (call : Timed) (t : Tables) : Decidable (S.Strands call t) :=
  match call with
  | ⟨_, .put _ _ _⟩ => inferInstanceAs (Decidable (_ ∧ (∃ current ∈ _, _) ∧ ∀ x ∈ _, _))
  | ⟨_, .listPage _ _⟩ | ⟨_, .delete _ _⟩ | ⟨_, .cleanup⟩ => inferInstanceAs (Decidable False)

theorem put_changes (address : MailboxAddress) (authorization : MailboxWriteAuthorization) (envelope : Bytes) :
    ReflTransGen (S.Change now (S.Strands ⟨now, .put address authorization envelope⟩ t)) t
      (S.put address authorization envelope now t).2 := by
  rcases commit_cases (fun t => do
    let candidate ← S.candidate address authorization envelope now
    S.putCandidate (putKey (P := P) address authorization) candidate now t) t with
    ⟨outcome, t', hbody, hcommit⟩ | ⟨e, _, hcommit⟩
  · have hput : S.put address authorization envelope now t = (.ok outcome, t') := hcommit
    obtain ⟨candidate, hcandidate, hchange⟩ := bind_eq_ok.mp hbody
    rw [hput]
    obtain ⟨hvalid, henvelope⟩ := validate_candidate hcandidate
    refine putCandidate_changes hvalid hchange fun current hat hexpired hgone hfull => ?_
    rw [henvelope] at hfull
    exact ⟨by rw [hcandidate]; rfl, ⟨current, hat, hexpired, hfull⟩, hgone⟩
  · have hput : S.put address authorization envelope now t = (.error e, t) := hcommit
    rw [hput]

theorem delete_changes (address : MailboxAddress) (authorization : MailboxReadAuthorization) :
    ReflTransGen (S.Change now strands) t (S.delete address authorization now t).2 := by
  unfold delete
  split
  · exact .refl
  · split
    · exact .refl
    · next itemId receiptId _ =>
      rcases commit_cases (S.deleteItem ⟨address.mailboxId P, itemId⟩ receiptId now)
        (cleanup P now t).2 with ⟨outcome, t', hbody, hcommit⟩ | ⟨e, _, hcommit⟩
      · rw [hcommit]
        exact .head .swept (deleteItem_changes hbody)
      · rw [hcommit]
        exact .single .swept

theorem listPage_changes (address : MailboxAddress) (authorization : MailboxReadAuthorization) :
    ReflTransGen (S.Change now strands) t (listPage P address authorization now t).2 := by
  unfold listPage
  split
  · exact .refl
  · split
    · exact .refl
    · exact .single .swept

theorem serve_changes (S : BlindMailboxStore P) (call : Timed) (t : Tables) :
    ReflTransGen (S.Change call.now (S.Strands call t)) t (S.serve call t).2 := by
  obtain ⟨now, request⟩ := call
  cases request with
  | put address authorization envelope => exact put_changes address authorization envelope
  | listPage address authorization => exact listPage_changes address authorization
  | delete address authorization => exact delete_changes address authorization
  | cleanup => exact .single .swept

theorem get_cleanup_items (t : Tables) (key : ItemKey) :
    (cleanup P now t).2.items[key]? = (t.items[key]?).filter (retainItem P now key) :=
  TreeMap.getElem?_filter'

theorem get_cleanup_tombstones (t : Tables) (key : ItemKey) :
    (cleanup P now t).2.tombstones[key]? = (t.tombstones[key]?).filter (retainTombstone P now key) :=
  TreeMap.getElem?_filter'

def Tally.counter (y : Tally) : Counter → Nat
  | .items => y.liveItems
  | .bytes => y.liveBytes
  | .mailbox m => (y.mailboxCounts[m]?).getD 0

theorem Tally.counter_add {y : Tally} {entry : ItemKey × StoredRecord}
    (h : y.counter c + c.measure entry.1 entry.2 < 2 ^ 64) :
    (y.add entry).counter c = y.counter c + c.measure entry.1 entry.2 := by
  cases c with
  | items | bytes => exact saturatingAdd_of_lt h
  | mailbox m =>
    simp only [counter, add, get_insert, Counter.measure] at h ⊢
    split_ifs at h ⊢ with hm
    · rw [hm]
      exact saturatingAdd_of_lt h
    · rfl

/-- Counting over a list adds up its measures, as long as the sum does not saturate. -/
theorem Tally.counter_foldl (l : List (ItemKey × StoredRecord)) (y : Tally) (c : Counter)
    (h : y.counter c + (l.map fun e => c.measure e.1 e.2).sum < 2 ^ 64) :
    (l.foldl add y).counter c = y.counter c + (l.map fun e => c.measure e.1 e.2).sum := by
  induction l generalizing y with
  | nil => rfl
  | cons e l ih =>
    rw [List.map_cons, List.sum_cons] at h ⊢
    have hadd : (y.add e).counter c = y.counter c + c.measure e.1 e.2 := counter_add (by omega)
    rw [List.foldl_cons, ih (y.add e) (by omega), hadd, Nat.add_assoc]

theorem actual_cleanup_le (t : Tables) (c : Counter) : (cleanup P now t).2.actual c ≤ t.actual c := by
  refine Maps.weight_le_of_sub _ fun key r hr => ?_
  rw [get_cleanup_items] at hr
  exact (Option.filter_eq_some_iff.mp hr).1

theorem counter_cleanup (h : t.actual c < 2 ^ 64) : (cleanup P now t).2.counter c = (cleanup P now t).2.actual c := by
  have hactual : (cleanup P now t).2.actual c ≤ t.actual c := actual_cleanup_le t c
  have hzero : Tally.counter ⟨0, 0, ∅⟩ c = 0 := by
    cases c with
    | items => rfl
    | bytes => rfl
    | mailbox m => simp [Tally.counter]
  have hfold := Tally.counter_foldl (cleanup P now t).2.items.toList ⟨0, 0, ∅⟩ c
    (by rw [hzero, Nat.zero_add]; exact hactual.trans_lt h)
  rw [hzero, Nat.zero_add] at hfold
  rw [Tables.actual, Maps.weight, ← hfold]
  cases c with
  | items => rfl
  | bytes => rfl
  | mailbox m => rfl

theorem Change.actual_placed
    (hitems : ∀ k, t'.items[k]? = if key = k then some candidate else t.items[k]?) (c : Counter) :
    t'.actual c + (t.items[key]?).elim 0 (c.measure key) = t.actual c + c.measure key candidate := by
  have hsame : t'.actual c = Maps.weight c.measure (t.items.insert key candidate) := by
    refine Maps.weight_of_get_eq _ fun k => ?_
    rw [hitems, get_insert]
  rw [hsame]
  exact Maps.weight_insert ..

theorem Change.bounded (h : S.Change now strands t t') (hb : t.Bounded S.config) : t'.Bounded S.config := by
  cases h with
  | swept =>
    have hexact (c : Counter) : (cleanup P now t).2.counter c = (cleanup P now t).2.actual c :=
      counter_cleanup (((hb.covers c).trans (hb.within c)).trans_lt
        ((S.limit_le c).trans_lt (by decide)))
    constructor
    · exact fun c => (hexact c).ge
    · intro c
      rw [hexact c]
      exact (actual_cleanup_le t c).trans ((hb.covers c).trans (hb.within c))
  | forgot _ _ => exact ⟨hb.covers, hb.within⟩
  | stranded _ hat _ =>
    refine ⟨fun c => ?_, hb.within⟩
    have := Maps.weight_erase_of_some c.measure hat
    have hcovers := hb.covers c
    unfold Tables.actual at hcovers ⊢
    exact (show Maps.weight c.measure (t.items.erase _) ≤ Maps.weight c.measure t.items by omega).trans
      hcovers
  | @placed key candidate _ hvalid hat hfree hitems htombstones hcounter hlimit =>
    constructor
    · intro c
      have hactual := actual_placed hitems c
      have := hb.covers c
      rw [hcounter]
      omega
    · intro c
      by_cases hc : c.measure key candidate = 0
      · rw [hcounter, hc]
        exact (Nat.sub_le _ _).trans (hb.within c)
      · exact hlimit c hc
  | @removed key current _ _ hat hvalid hexpires hitems htombstones hcounter =>
    constructor
    · intro c
      have hactual := Maps.weight_erase_of_some c.measure hat
      have := hb.covers c
      rw [hcounter]
      unfold Tables.actual at this ⊢
      rw [hitems]
      omega
    · intro c
      rw [hcounter]
      exact (Nat.sub_le _ _).trans (hb.within c)

theorem Change.exact (h : S.Change now strands t t') (hs : ¬ strands) (hb : t.Bounded S.config)
    (he : t.Exact) : t'.Exact := by
  cases h with
  | swept =>
    intro c
    exact counter_cleanup (((hb.covers c).trans (hb.within c)).trans_lt ((S.limit_le c).trans_lt (by decide)))
  | forgot _ _ => exact he
  | stranded hstrands _ _ => exact absurd hstrands hs
  | @placed key candidate _ hvalid hat hfree hitems htombstones hcounter hlimit =>
    intro c
    have hactual := actual_placed hitems c
    have hle : (t.items[key]?).elim 0 (c.measure key) ≤ t.actual c := by
      have := Maps.weight_erase c.measure t.items key
      unfold Tables.actual
      omega
    rw [hcounter, he c]
    omega
  | @removed key current _ _ hat hvalid hexpires hitems htombstones hcounter =>
    intro c
    have hactual := Maps.weight_erase_of_some c.measure hat
    rw [hcounter, he c]
    unfold Tables.actual
    rw [hitems]
    omega

/-- Every record in the item table passes its own check. -/
def Validated (P : Primitives) (t : Tables) : Prop :=
  ∀ (key : ItemKey) (r : StoredRecord), t.items[key]? = some r → r.validate P = .ok ()

theorem Change.validated (h : S.Change now strands t t') (hv : Validated P t) : Validated P t' := by
  intro key r hr
  cases h with
  | swept =>
    rw [get_cleanup_items] at hr
    exact hv key r (Option.filter_eq_some_iff.mp hr).1
  | forgot _ _ => exact hv key r hr
  | stranded _ _ _ =>
    rw [get_erase] at hr
    split_ifs at hr
    exact hv key r hr
  | placed hvalid _ _ hitems _ _ _ =>
    rw [hitems] at hr
    split_ifs at hr
    · exact Option.some.inj hr ▸ hvalid
    · exact hv key r hr
  | removed _ _ _ hitems _ _ =>
    rw [hitems, get_erase] at hr
    split_ifs at hr
    exact hv key r hr

/-- The item is gone, and its tombstone stands until `expires`. -/
structure Buried (P : Primitives) (key : ItemKey) (expires : Nat) (t : Tables) : Prop where
  gone : t.items[key]? = none
  marked : ∃ tombstone, t.tombstones[key]? = some tombstone ∧ tombstone.validate P = .ok () ∧
    tombstone.deleteReceipt.content.expiresAtUnixSeconds = expires

theorem Change.buried (h : S.Change now strands t t')
    (hb : Buried P key expires t) (hnow : now < expires) : Buried P key expires t' := by
  obtain ⟨hgone, tombstone, hat, hvalid, rfl⟩ := hb
  have hlive : ¬ tombstone.expiredAt now := Nat.not_le.mpr hnow
  cases h with
  | swept =>
    refine ⟨by rw [get_cleanup_items, hgone]; rfl, tombstone, ?_, hvalid, rfl⟩
    rw [get_cleanup_tombstones, hat, Option.filter_some, if_pos]
    simp [retainTombstone, StoredTombstone.decode, hvalid, hlive, Except.isOk, Except.toBool]
  | forgot hat' hexpired =>
    refine ⟨hgone, tombstone, ?_, hvalid, rfl⟩
    rw [Maps.get_erase_of_ne]
    · exact hat
    · rintro rfl
      exact hlive (Option.some.inj (hat'.symm.trans hat) ▸ hexpired)
  | stranded _ _ _ =>
    refine ⟨?_, tombstone, hat, hvalid, rfl⟩
    rw [get_erase, hgone, ite_self]
  | placed _ _ hfree hitems htombstones _ _ =>
    refine ⟨?_, tombstone, htombstones ▸ hat, hvalid, rfl⟩
    rw [hitems, if_neg, hgone]
    rintro rfl
    cases hfree.symm.trans hat
  | removed hat' _ _ hitems htombstones _ =>
    refine ⟨by rw [hitems, get_erase, hgone, ite_self], tombstone, ?_, hvalid, rfl⟩
    rw [htombstones, Maps.get_insert_of_ne]
    · exact hat
    · rintro rfl
      cases hat'.symm.trans hgone

/-- Until it expires, an item is there unchanged or it was deleted. -/
def Held (P : Primitives) (key : ItemKey) (r : StoredRecord) (t : Tables) : Prop :=
  t.items[key]? = some r ∨ Buried P key r.receipt.content.expiresAtUnixSeconds t

theorem Change.held (h : S.Change now strands t t') (hh : Held P key r t) (hr : r.validate P = .ok ())
    (hnow : now < r.receipt.content.expiresAtUnixSeconds) : Held P key r t' := by
  have hlive : ¬ r.expiredAt now := Nat.not_le.mpr hnow
  rcases hh with hat | hb
  · cases h with
    | swept =>
      left
      rw [get_cleanup_items, hat, Option.filter_some, if_pos]
      simp [retainItem, StoredRecord.decode, hr, hlive, Except.isOk, Except.toBool]
    | forgot _ _ => exact .inl hat
    | stranded _ hat' hexpired =>
      left
      rw [Maps.get_erase_of_ne]
      · exact hat
      · rintro rfl
        exact hlive (Option.some.inj (hat'.symm.trans hat) ▸ hexpired)
    | placed _ hat' _ hitems _ _ _ =>
      left
      rw [hitems, if_neg, hat]
      rintro rfl
      exact hlive (hat' r hat)
    | @removed key' current tombstone _ hat' hvalid hexpires hitems htombstones _ =>
      by_cases hkey : key = key'
      · subst hkey
        right
        refine ⟨by rw [hitems, get_erase, if_pos rfl], tombstone, ?_, hvalid, ?_⟩
        · rw [htombstones, get_insert, if_pos rfl]
        · rw [hexpires, Option.some.inj (hat'.symm.trans hat)]
      · left
        rw [hitems, Maps.get_erase_of_ne _ hkey]
        exact hat
  · exact .inr (h.buried hb hnow)

theorem deleteItem_buries {receiptId : MailboxReceiptId} {receipt : MailboxDeleteReceipt}
    (h : S.deleteItem key receiptId now t = .ok (.deleted receipt, t')) :
    key = ⟨receipt.content.mailboxId, receipt.content.itemId⟩ ∧
      Buried P key receipt.content.storedReceiptId.content.expiresAtUnixSeconds t' := by
  unfold deleteItem at h
  split at h
  · next current hcurrent =>
    simp only [bind_eq_ok, StoredRecord.decode_eq_ok] at h
    obtain ⟨_, ⟨_, rfl⟩, id, hid, h⟩ := h
    split_ifs at h with hne hfull
    · simp at h
    · simp at h
    · simp only [bind_eq_ok, StoredTombstone.decode_eq_ok] at h
      obtain ⟨_, ⟨hvalid, rfl⟩, h⟩ := h
      obtain ⟨houtcome, rfl⟩ := Prod.mk.inj (pure_eq_ok.mp h)
      obtain rfl := DeleteOutcome.deleted.inj houtcome
      obtain rfl := not_not.mp hne
      obtain rfl := MailboxStoredReceipt.receiptId_eq_ok (Checked.context_eq_ok.mp hid)
      refine ⟨rfl, ?_, _, ?_, hvalid, rfl⟩
      · exact (get_erase _ _ _).trans (if_pos rfl)
      · exact (get_insert _ _ _ _).trans (if_pos rfl)
  · split at h
    · simp at h
    · simp only [bind_eq_ok] at h
      obtain ⟨_, _, h⟩ := h
      split_ifs at h
      · simp at h
      · simp at h

theorem collectItems_mem {mailboxId : Id} {afterItemId : Option Id} {limit : Nat}
    {entries : List (ItemKey × StoredRecord)} {found : List StoredMailboxItem}
    (h : collectItems P mailboxId afterItemId limit entries items = .ok found) (hitem : item ∈ found) :
    item ∈ items ∨ ∃ r, (⟨mailboxId, item.itemId⟩, r) ∈ entries := by
  induction entries generalizing items with
  | nil =>
    left
    exact pure_eq_ok.mp h ▸ hitem
  | cons entry rest ih =>
    obtain ⟨key, record⟩ := entry
    have hlater {items : List StoredMailboxItem}
        (h : collectItems P mailboxId afterItemId limit rest items = .ok found) :
        item ∈ items ∨ ∃ r, (⟨mailboxId, item.itemId⟩, r) ∈ (key, record) :: rest :=
      (ih h).imp_right fun ⟨r, hr⟩ => ⟨r, .tail _ hr⟩
    unfold collectItems at h
    split_ifs at h with hmailbox hafter
    · exact hlater h
    · exact hlater h
    · -- the entry itself is of this mailbox
      have hkey : key = ⟨mailboxId, key.itemId⟩ := by rw [← not_not.mp hmailbox]
      have hnew {i : StoredMailboxItem} (hi : i.itemId = key.itemId) (hmem : item ∈ items ++ [i]) :
          item ∈ items ∨ ∃ r, (⟨mailboxId, item.itemId⟩, r) ∈ (key, record) :: rest := by
        rcases List.mem_append.mp hmem with hmem | hmem
        · exact .inl hmem
        · rw [List.mem_singleton.mp hmem, hi, ← hkey]
          exact .inr ⟨record, .head _⟩
      simp only [bind_eq_ok] at h
      obtain ⟨_, _, _, _, h⟩ := h
      split_ifs at h
      · rw [← pure_eq_ok.mp h] at hitem
        exact hnew rfl hitem
      · rcases hlater h with hmem | hmem
        · exact hnew rfl hmem
        · exact .inr hmem

theorem pageOf_mem {limit : Nat} (h : item ∈ (pageOf items limit).items) : item ∈ items := by
  unfold pageOf at h
  split at h
  · exact List.mem_of_mem_take h
  · exact h

/-- The answer hands out the item, or says that the request brought it back. -/
def Shows (P : Primitives) (key : ItemKey) : Request → Answer → Prop
  | .put address authorization _, .put (.ok (.created _)) => putKey (P := P) address authorization = key
  | .put address authorization _, .put (.ok (.alreadyPresent _)) =>
    putKey (P := P) address authorization = key
  | .listPage address _, .listPage (.ok page) =>
    address.mailboxId P = key.mailboxId ∧ ∃ item ∈ page.items, item.itemId = key.itemId
  | _, _ => False

theorem put_of_buried (hb : Buried P key expires t) (hnow : now < expires) {authorization : MailboxWriteAuthorization}
    (hkey : putKey (P := P) address authorization = key)
    (h : (S.put address authorization envelope now t).1 = .ok outcome) : outcome = .tombstoned := by
  obtain ⟨hgone, tombstone, hat, hvalid, rfl⟩ := hb
  have hlive : ¬ tombstone.expiredAt now := Nat.not_le.mpr hnow
  have hdecode : tombstone.decode P = .ok tombstone := StoredTombstone.decode_eq_ok.mpr ⟨hvalid, rfl⟩
  have hput (candidate : StoredRecord) : S.putCandidate key candidate now t = .ok (.tombstoned, t) := by
    simp only [putCandidate, hgone, putWithoutLiveItem, hat]
    rw [Except.bind_of_ok hdecode, if_pos hlive]
    rfl
  rcases commit_cases (fun t => do
    let candidate ← S.candidate address authorization envelope now
    S.putCandidate (putKey (P := P) address authorization) candidate now t) t with
    ⟨o, t', hbody, hcommit⟩ | ⟨e, _, hcommit⟩
  · obtain ⟨candidate, _, hchange⟩ := bind_eq_ok.mp hbody
    rw [hkey, hput] at hchange
    rw [put, hcommit] at h
    rw [← Except.ok.inj h, ← (Prod.mk.inj (Except.ok.inj hchange)).1]
  · rw [put, hcommit] at h
    simp at h

theorem listPage_of_gone (hgone : t.items[key]? = none)
    {authorization : MailboxReadAuthorization} {page : StoredMailboxPage}
    (h : (listPage P address authorization now t).1 = .ok page)
    (hmailbox : address.mailboxId P = key.mailboxId)
    (hitem : item ∈ page.items) : item.itemId ≠ key.itemId := by
  unfold listPage at h
  split at h
  · simp at h
  · split at h
    · simp at h
    · intro hid
      obtain ⟨found, hfound, rfl⟩ := Except.map_eq_ok.mp h
      rcases collectItems_mem hfound (pageOf_mem hitem) with hmem | ⟨r, hr⟩
      · simp at hmem
      · rw [hmailbox, hid, TreeMap.mem_toList_iff_getElem?_eq_some, get_cleanup_items] at hr
        rw [show t.items[(⟨key.mailboxId, key.itemId⟩ : ItemKey)]? = none from hgone] at hr
        simp at hr

theorem not_shows_of_buried (hb : Buried P key expires t) (hnow : call.now < expires) : ¬ Shows P key call.request (S.serve call t).1 := by
  obtain ⟨now, request⟩ := call
  cases request with
  | put address authorization envelope =>
    show ¬ Shows P key (.put address authorization envelope) (.put (S.put address authorization envelope now t).1)
    cases hput : (S.put address authorization envelope now t).1 with
    | error e => exact id
    | ok outcome =>
      cases outcome with
      | created receipt => exact fun hkey => absurd (put_of_buried hb hnow hkey hput) (by simp)
      | alreadyPresent receipt =>
        exact fun hkey => absurd (put_of_buried hb hnow hkey hput) (by simp)
      | conflict => exact id
      | tombstoned => exact id
      | capacityExceeded => exact id
  | listPage address authorization =>
    show ¬ Shows P key (.listPage address authorization) (.listPage (listPage P address authorization now t).1)
    cases hpage : (listPage P address authorization now t).1 with
    | error e => exact id
    | ok page =>
      rintro ⟨hmailbox, item, hitem, hid⟩
      exact listPage_of_gone hb.gone hpage hmailbox hitem hid
  | delete address authorization => exact id
  | cleanup => exact id

theorem serve_buries {receipt : MailboxDeleteReceipt} (h : (S.serve call t).1 = .delete (.ok (.deleted receipt))) :
    Buried P ⟨receipt.content.mailboxId, receipt.content.itemId⟩
      receipt.content.storedReceiptId.content.expiresAtUnixSeconds (S.serve call t).2 := by
  obtain ⟨now, request⟩ := call
  cases request with
  | put | listPage | cleanup => exact absurd h (by simp [serve])
  | delete address authorization =>
    have hdelete : (S.delete address authorization now t).1 = .ok (.deleted receipt) := Answer.delete.inj h
    show Buried P _ _ (S.delete address authorization now t).2
    unfold delete at hdelete ⊢
    split at hdelete
    · simp at hdelete
    · split at hdelete
      · simp at hdelete
      · next itemId receiptId hoperation =>
        rcases commit_cases (S.deleteItem ⟨address.mailboxId P, itemId⟩ receiptId now)
          (cleanup P now t).2 with ⟨outcome, t', hbody, hcommit⟩ | ⟨e, _, hcommit⟩
        · rw [hcommit] at hdelete ⊢
          cases hdelete
          obtain ⟨hkey, hburied⟩ := deleteItem_buries hbody
          exact hkey ▸ hburied
        · rw [hcommit] at hdelete
          simp at hdelete

theorem serve_keeps {I : Tables → Prop}
    (hstep : ∀ u u', S.Change call.now (S.Strands call t) u u' → I u → I u') (ht : I t) :
    I (S.serve call t).2 := by
  have hchanges := S.serve_changes call t
  generalize (S.serve call t).2 = t' at hchanges ⊢
  induction hchanges with
  | refl => exact ht
  | tail _ hchange ih => exact hstep _ _ hchange ih

theorem after_bounded (S : BlindMailboxStore P) (calls : List Timed) : (S.service.after calls).Bounded S.config := by
  refine Service.invariant ?_ (fun t call => serve_keeps fun _ _ hchange => hchange.bounded) calls
  constructor
  · intro c
    exact (weight_empty _).le.trans (Nat.zero_le _)
  · intro c
    cases c with
    | items | bytes => exact Nat.zero_le _
    | mailbox m => simp [service, Tables.counter, Tables.readMailboxCount, Tables.empty]

theorem after_validated (S : BlindMailboxStore P) (calls : List Timed) : Validated P (S.service.after calls) := by
  refine Service.invariant ?_ (fun t call => serve_keeps fun _ _ hchange => hchange.validated) calls
  intro key r hr
  exact absurd hr (by simp [service, Tables.empty])

theorem exact_empty : Tables.Exact .empty := by
  intro c
  cases c with
  | items | bytes => exact (weight_empty _).symm
  | mailbox m => simp [Tables.counter, Tables.readMailboxCount, Tables.empty, Tables.actual]

/-- As long as no call strands an item, the counters are exact. -/
theorem after_exact (S : BlindMailboxStore P) (calls : List Timed)
    (h : ∀ before call later, calls = before ++ call :: later → ¬ S.Strands call (S.service.after before)) :
    (S.service.after calls).Exact := by
  show Tables.Exact (S.service.after ([] ++ calls))
  refine Service.since exact_empty ?_
  intro mid call rest hsplit hexact
  have hboth : (S.serve call (S.service.after mid)).2.Bounded S.config ∧
      (S.serve call (S.service.after mid)).2.Exact :=
    serve_keeps (I := fun t => t.Bounded S.config ∧ t.Exact)
      (fun _ _ hchange hu => ⟨hchange.bounded hu.1, hchange.exact (h mid call rest hsplit) hu.1 hu.2⟩)
      ⟨S.after_bounded mid, hexact⟩
  exact hboth.2

theorem after_held {later : List Timed} (hat : (S.service.after before).items[key]? = some r)
    (hnow : ∀ call ∈ later, call.now < r.receipt.content.expiresAtUnixSeconds) :
    Held P key r (S.service.after (before ++ later)) := by
  have hr := S.after_validated before key r hat
  refine Service.since (.inl hat) fun mid call rest hsplit hheld => ?_
  have hcall := hnow call (by simp [hsplit])
  exact serve_keeps (fun _ _ hchange hu => hchange.held hu hr hcall) hheld

theorem after_buried {later : List Timed}
    (hb : Buried P key expires (S.service.after before)) (hnow : ∀ call ∈ later, call.now < expires) :
    Buried P key expires (S.service.after (before ++ later)) := by
  refine Service.since hb fun mid call rest hsplit hburied => ?_
  have hcall := hnow call (by simp [hsplit])
  exact serve_keeps (fun _ _ hchange hu => hchange.buried hu hcall) hburied

/-- The stored counters are those of the item table. -/
structure Accounted (t : Tables) : Prop where
  items : t.totalItems = t.items.size
  bytes : t.totalBytes = (t.items.toList.map fun e => e.2.envelope.length).sum
  mailbox : ∀ m, t.readMailboxCount m = t.items.toList.countP fun e => e.1.mailboxId = m

theorem accounted_of_exact (h : t.Exact) : Accounted t where
  items := (h .items).trans (Maps.weight_one t.items)
  bytes := h .bytes
  mailbox m := by
    refine (h (.mailbox m)).trans ?_
    show (t.items.toList.map fun e => if e.1.mailboxId = m then 1 else 0).sum = _
    induction t.items.toList with
    | nil => rfl
    | cons e l ih =>
      rw [List.map_cons, List.sum_cons, List.countP_cons, ih, Nat.add_comm]
      simp

/-- After any calls the counters are within the limits, an item was never replaced before it expired, and a
deleted item is neither handed out nor brought back before the stored receipt expires. If no call has
stranded an item, the counters are those of the item table. -/
theorem accounts_and_remembers (S : BlindMailboxStore P) (calls : List Timed) :
    ((∀ before call later, calls = before ++ call :: later → ¬ S.Strands call (S.service.after before)) →
      Accounted (S.service.after calls)) ∧ ((S.service.after calls).totalItems ≤ S.config.maxTotalItems ∧
        (S.service.after calls).totalBytes ≤ S.config.maxTotalBytes ∧
        ∀ m, (S.service.after calls).readMailboxCount m ≤ S.config.maxItemsPerMailbox) ∧
      (∀ before later (key : ItemKey) (record : StoredRecord), calls = before ++ later →
        (S.service.after before).items[key]? = some record →
        (∀ call ∈ later, call.now < record.receipt.content.expiresAtUnixSeconds) →
        (S.service.after calls).items[key]? = none ∨ (S.service.after calls).items[key]? = some record) ∧
      ∀ before call later next rest (receipt : MailboxDeleteReceipt),
        calls = before ++ call :: later ++ next :: rest →
        (S.serve call (S.service.after before)).1 = .delete (.ok (.deleted receipt)) →
        (∀ c ∈ later ++ [next], c.now < receipt.content.storedReceiptId.content.expiresAtUnixSeconds) →
        ¬ Shows P ⟨receipt.content.mailboxId, receipt.content.itemId⟩ next.request
            (S.serve next (S.service.after (before ++ call :: later))).1 ∧
          (S.service.after (before ++ call :: later ++ [next])).items[
            (⟨receipt.content.mailboxId, receipt.content.itemId⟩ : ItemKey)]? = none := by
  have hbounded := S.after_bounded calls
  refine ⟨fun hkept => accounted_of_exact (S.after_exact calls hkept),
    ⟨hbounded.within .items, hbounded.within .bytes, fun m => hbounded.within (.mailbox m)⟩, ?_, ?_⟩
  · intro before later key record hsplit hat hnow
    subst hsplit
    rcases after_held hat hnow with hsame | hburied
    · exact .inr hsame
    · exact .inl hburied.gone
  · intro before call later next rest receipt _ hdeleted hnow
    have hburied := serve_buries hdeleted
    have hafter := Service.after_concat (S := S.service) before call
    rw [show (S.serve call (S.service.after before)).2 = _ from hafter.symm] at hburied
    have hlater := after_buried hburied fun c hc => hnow c (List.mem_append_left _ hc)
    have hnext := after_buried hburied hnow
    simp only [List.append_assoc, List.cons_append, List.nil_append] at hlater hnext ⊢
    exact ⟨not_shows_of_buried hlater (hnow next (List.mem_append_right _ (.head _))), hnext.gone⟩

section Samples

def sampleStore : BlindMailboxStore samplePrimitives where
  identity := ⟨9, fun _ => sampleSignature, rfl, fun _ => rfl, fun _ => rfl⟩
  config := ⟨2, 2, 2, 2⟩
  valid := by decide

def sampleAddress : MailboxAddress := ⟨Mailbox.version, 1, 2⟩

def samplePut (now : Nat) (itemId : Id) (ttl : Nat) (envelope : Bytes) : Timed := ⟨now, .put sampleAddress
    ⟨⟨Mailbox.version, sampleAddress.mailboxId samplePrimitives, itemId, sampleAddress.writeKey, ttl,
      envelope.length, envelope⟩, sampleSignature⟩ envelope⟩

def sampleDelete (now : Nat) (itemId : Id) (receipt : MailboxReceiptId) : Timed :=
  ⟨now, .delete sampleAddress ⟨⟨Mailbox.version, sampleAddress.mailboxId samplePrimitives,
    sampleAddress.readKey, .delete itemId receipt⟩, sampleSignature⟩⟩

def sampleReceipt : MailboxStoredReceipt :=
  sampleStore.identity.storedReceipt (sampleAddress.mailboxId samplePrimitives) 10 [7] 0 60

/-- Two items of one byte; the first is deleted and then offered again. -/
def rememberingCalls : List Timed :=
  [samplePut 0 10 60 [7], samplePut 0 11 120 [7], sampleDelete 30 10 sampleReceipt, samplePut 40 10 60 [7]]

theorem accounts_and_remembers_sample :
    (sampleStore.serve (sampleDelete 30 10 sampleReceipt) (sampleStore.service.after (rememberingCalls.take 2))).1 =
        .delete (.ok (.deleted (sampleStore.identity.deleteReceipt
          (sampleAddress.mailboxId samplePrimitives) 10 sampleReceipt 30 60))) ∧
      (sampleStore.serve (samplePut 40 10 60 [7]) (sampleStore.service.after (rememberingCalls.take 3))).1 =
        .put (.ok .tombstoned) ∧
      Accounted (sampleStore.service.after rememberingCalls) ∧
      (sampleStore.service.after rememberingCalls).items.size = 1 := by
  have hall : ∀ n < 4, ∀ call ∈ rememberingCalls[n]?,
      ¬ sampleStore.Strands call (sampleStore.service.after (rememberingCalls.take n)) := by
    decide +kernel
  have hkept : ∀ before call later, rememberingCalls = before ++ call :: later →
      ¬ sampleStore.Strands call (sampleStore.service.after before) := by
    intro before call later hsplit
    have hn : before.length < 4 := by
      have := congrArg List.length hsplit
      simp [rememberingCalls] at this
      omega
    have hbefore : before = rememberingCalls.take before.length := by rw [hsplit, List.take_left]
    have hcall : rememberingCalls[before.length]? = some call := by
      rw [hsplit, List.getElem?_append_right (Nat.le_refl _), Nat.sub_self]
      rfl
    have hlocal := hall before.length hn call hcall
    rwa [← hbefore] at hlocal
  exact ⟨by decide +kernel, by decide +kernel, (accounts_and_remembers sampleStore _).1 hkept, by decide +kernel⟩

/-- Two items of one byte; when the first has expired, two bytes are offered in its place. -/
def strandingCalls : List Timed := [samplePut 0 10 60 [7], samplePut 0 11 120 [7], samplePut 60 10 60 [7, 7]]

/-- The expired item is gone and still counted, so that one byte more finds no room. -/
theorem capacity_lost_to_expired_item : strandingCalls.Pairwise (fun a b => a.now ≤ b.now) ∧
      (sampleStore.serve (samplePut 60 10 60 [7, 7]) (sampleStore.service.after (strandingCalls.take 2))).1 =
        .put (.ok .capacityExceeded) ∧
      (sampleStore.service.after strandingCalls).items.size = 1 ∧
      (sampleStore.service.after strandingCalls).totalItems = 2 ∧
      (sampleStore.service.after strandingCalls).totalBytes = 2 ∧
      (sampleStore.service.after strandingCalls).readMailboxCount (sampleAddress.mailboxId samplePrimitives) = 2 ∧
      (sampleStore.serve (samplePut 60 12 60 [7]) (sampleStore.service.after strandingCalls)).1 =
        .put (.ok .capacityExceeded) ∧
      ¬ Accounted (sampleStore.service.after strandingCalls) := by
  have hsize : (sampleStore.service.after strandingCalls).items.size = 1 := by decide +kernel
  have hcount : (sampleStore.service.after strandingCalls).totalItems = 2 := by decide +kernel
  refine ⟨by decide +kernel, by decide +kernel, hsize, hcount, by decide +kernel, by decide +kernel,
    by decide +kernel, fun h => ?_⟩
  exact absurd (hcount.symm.trans (h.items.trans hsize)) (by decide)

end Samples
end BlindMailboxStore
end Kilogram.Mailbox
