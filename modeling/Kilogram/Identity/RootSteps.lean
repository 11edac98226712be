import Kilogram.Identity.Root

/-!
# What the operations of an account root do to its directory

The snapshot and the list that a directory gives are described by what it holds.
-/

namespace Kilogram.Identity
open Crash Crash.Prog
open Except (ok_iff bind_of_ok failIf_eq_ok failIf_of_not forM_eq_ok)
section Sorting
variable {α : Type} {key : α → Nat} {l : List α}

theorem sortBy_perm (key : α → Nat) (l : List α) : (sortBy key l).Perm l := List.perm_insertionSort _ l
@[simp] theorem mem_sortBy {a : α} : a ∈ sortBy key l ↔ a ∈ l := (sortBy_perm key l).mem_iff
@[simp] theorem length_sortBy : (sortBy key l).length = l.length := (sortBy_perm key l).length_eq

@[simp] theorem sortBy_eq_nil : sortBy key l = [] ↔ l = [] := by
  rw [← List.length_eq_zero_iff, length_sortBy, List.length_eq_zero_iff]

theorem pairwise_sortBy : (sortBy key l).Pairwise fun a b => key a ≤ key b := by
  have : Std.Total fun a b : α => key a ≤ key b := ⟨fun a b => Nat.le_total (key a) (key b)⟩
  have : IsTrans α fun a b => key a ≤ key b := ⟨fun _ _ _ => Nat.le_trans⟩
  exact List.pairwise_insertionSort _ l

theorem checkAscending_sortBy {equal : α → IdentityError} {greater : IdentityError} {u : Unit} :
    checkAscending key equal greater (sortBy key l) = .ok u ↔ (l.map key).Nodup := by
  have htrans : IsTrans α fun a b => key a < key b := ⟨fun _ _ _ => Nat.lt_trans⟩
  rw [checkAscending_eq_ok, List.isChain_iff_pairwise, ← ((sortBy_perm key l).map key).nodup_iff,
    List.Nodup, List.pairwise_map]
  constructor
  · intro h
    exact h.imp Nat.ne_of_lt
  · intro h
    exact (pairwise_sortBy.and h).imp fun h => Nat.lt_of_le_of_ne h.1 h.2

end Sorting

section
variable {S : Signatures} {R : AccountRootIdentity S} {d : RootDirectory} {n : Nat}
  {revs : List DeviceRevocation} {certificates : List DeviceCertificate}

theorem issue_revocation_verify (device : Id) (n : Nat) :
    (DeviceRevocation.issue R device n).verify S = .ok () := by
  simp only [DeviceRevocation.verify, DeviceRevocation.issue, validateAuthorityVersion, ok_iff]
  exact ⟨(), by simp, R.verify_sign _⟩

def AccountRootIdentity.snapshot (R : AccountRootIdentity S) (n : Nat) (revs : List DeviceRevocation) :
    AccountAuthoritySnapshot :=
  let content : AccountAuthoritySnapshotContent := ⟨authorityVersion, R.accountId, n,
    sortBy (fun revocation : DeviceRevocation => revocation.deviceId.toNat) revs⟩
  ⟨content, R.sign (.authoritySnapshot content)⟩

@[simp] theorem snapshot_revision : (R.snapshot n revs).revision = n := rfl
@[simp] theorem snapshot_accountId : (R.snapshot n revs).accountId = R.accountId := rfl

variable {r : DeviceRevocation} {device : Id} {c : DeviceCertificate}
  {capabilities : List DeviceCapability} {list current : AccountDeviceListSnapshot}

@[simp] theorem mem_snapshot_revocations : r ∈ (R.snapshot n revs).revocations ↔ r ∈ revs := mem_sortBy

theorem snapshot_revokes : (R.snapshot n revs).revokes device ↔ device ∈ revs.map (·.deviceId) := by
  simp [AccountAuthoritySnapshot.revokes]

/-- The revocations can be put into a snapshot of the revision. -/
structure Snapshotable (R : AccountRootIdentity S) (n : Nat) (revs : List DeviceRevocation) : Prop where
  verified : ∀ r ∈ revs, r.verifyForAccount S R.accountId = .ok ()
  below : ∀ r ∈ revs, r.authoritySequence < n
  distinct : (revs.map (·.deviceId)).Nodup

theorem validateAuthoritySnapshotContent_eq_ok {u : Unit} :
    validateAuthoritySnapshotContent S (R.snapshot n revs).content = .ok u ↔ Snapshotable R n revs := by
  simp only [validateAuthoritySnapshotContent, AccountRootIdentity.snapshot, validateAuthorityVersion,
    ok_iff, forM_eq_ok, mem_sortBy, checkAscending_sortBy, nodup_map_toNat]
  constructor
  · rintro ⟨_, -, _, hall, hdistinct⟩
    refine ⟨fun r hr => ?_, fun r hr => ?_, hdistinct⟩
    · obtain ⟨_, hverified, -⟩ := hall r hr
      exact hverified
    · obtain ⟨_, -, hbelow⟩ := hall r hr
      exact Nat.not_le.mp (failIf_eq_ok.mp hbelow)
  · rintro ⟨hverified, hbelow, hdistinct⟩
    exact ⟨(), failIf_of_not (by simp) _, (), fun r hr => ⟨(), hverified r hr,
      failIf_of_not (Nat.not_le.mpr (hbelow r hr)) _⟩, hdistinct⟩

theorem Snapshotable.verifyForAccount (h : Snapshotable R n revs) :
    (R.snapshot n revs).verifyForAccount S R.accountId = .ok () := by
  simp only [AccountAuthoritySnapshot.verifyForAccount, AccountAuthoritySnapshot.verify, ok_iff]
  exact ⟨(), ⟨(), validateAuthoritySnapshotContent_eq_ok.mpr h, R.verify_sign _⟩, by
    simp [AccountRootIdentity.snapshot]⟩

/-- The directory gives the snapshot of the revision with the revocations. -/
structure Shows (R : AccountRootIdentity S) (d : RootDirectory) (n : Nat) (revs : List DeviceRevocation) :
    Prop extends Snapshotable R n revs where
  next : d.readNextAuthoritySequence = .ok n
  entries : d.revocationEntries = revs.map some

theorem mapM_decodeRevocation {entries : List (Option DeviceRevocation)} :
    entries.mapM (RootDirectory.decodeRevocation S) = .ok revs ↔
      entries = revs.map some ∧ ∀ r ∈ revs, r.verify S = .ok () := by
  have hdecode (entry : Option DeviceRevocation) (r : DeviceRevocation) :
      RootDirectory.decodeRevocation S entry = .ok r ↔ entry = some r ∧ r.verify S = .ok () := by
    simp only [RootDirectory.decodeRevocation, ok_iff]
    constructor
    · rintro ⟨_, rfl, _, hverify, rfl⟩
      exact ⟨rfl, hverify⟩
    · rintro ⟨rfl, hverify⟩
      exact ⟨r, rfl, (), hverify, rfl⟩
  rw [Except.mapM_eq_ok]
  simp only [hdecode]
  induction revs generalizing entries with
  | nil => simp
  | cons r revs ih =>
    cases entries with
    | nil => simp
    | cons entry entries =>
      simp only [List.forall₂_cons, ih, List.map_cons, List.cons.injEq, List.forall_mem_cons]
      exact and_and_and_comm

theorem verify_of_verifyForAccount {account : Id}
    (h : r.verifyForAccount S account = .ok ()) : r.verify S = .ok () := by
  simp only [DeviceRevocation.verifyForAccount, ok_iff] at h
  obtain ⟨_, h, _⟩ := h
  exact h

theorem authoritySnapshot_eq_ok {s : AccountAuthoritySnapshot} :
    d.authoritySnapshot R = .ok s ↔ ∃ n revs, Shows R d n revs ∧ s = R.snapshot n revs := by
  have hissue (n : Nat) (revs : List DeviceRevocation) : AccountAuthoritySnapshot.issue R n
          (sortBy (fun revocation : DeviceRevocation => revocation.deviceId.toNat) revs) = .ok s ↔
        Snapshotable R n revs ∧ s = R.snapshot n revs := by
    simp only [AccountAuthoritySnapshot.issue, ok_iff]
    constructor
    · rintro ⟨_, hvalid, rfl⟩
      exact ⟨validateAuthoritySnapshotContent_eq_ok.mp hvalid, rfl⟩
    · rintro ⟨hvalid, rfl⟩
      exact ⟨(), validateAuthoritySnapshotContent_eq_ok.mpr hvalid, rfl⟩
  simp only [RootDirectory.authoritySnapshot, ok_iff, mapM_decodeRevocation, hissue]
  constructor
  · rintro ⟨n, hnext, revs, ⟨hentries, -⟩, hvalid, rfl⟩
    exact ⟨n, revs, ⟨hvalid, hnext, hentries⟩, rfl⟩
  · rintro ⟨n, revs, h, rfl⟩
    exact ⟨n, h.next, revs, ⟨h.entries, fun r hr => verify_of_verifyForAccount (h.verified r hr)⟩,
      h.toSnapshotable, rfl⟩

theorem Shows.authoritySnapshot (h : Shows R d n revs) : d.authoritySnapshot R = .ok (R.snapshot n revs) :=
  authoritySnapshot_eq_ok.mpr ⟨n, revs, h, rfl⟩

theorem Shows.unique {m : Nat} {revs' : List DeviceRevocation} (h : Shows R d n revs)
    (h' : Shows R d m revs') : n = m ∧ revs = revs' := by
  have hnext := h.next.symm.trans h'.next
  have hentries := h.entries.symm.trans h'.entries
  exact ⟨Except.ok.inj hnext, List.map_injective_iff.mpr (Option.some_injective _) hentries⟩

def AccountRootIdentity.deviceList (R : AccountRootIdentity S) (n : Nat) (revs : List DeviceRevocation)
    (certificates : List DeviceCertificate) : AccountDeviceListSnapshot :=
  let content : AccountDeviceListSnapshotContent := ⟨accountDeviceListVersion, R.snapshot n revs,
    sortBy (fun certificate : DeviceCertificate => certificate.deviceId.toNat) certificates⟩
  ⟨content, R.sign (.deviceList content)⟩

@[simp] theorem deviceList_revision : (R.deviceList n revs certificates).revision = n := rfl
@[simp] theorem deviceList_accountId : (R.deviceList n revs certificates).accountId = R.accountId := rfl

@[simp] theorem deviceList_snapshot :
    (R.deviceList n revs certificates).content.authoritySnapshot = R.snapshot n revs := rfl

@[simp] theorem mem_deviceList_devices :
    c ∈ (R.deviceList n revs certificates).devices ↔ c ∈ certificates := mem_sortBy

/-- The certificate stands for a device that the revision and the revocations leave active. -/
structure Listed (R : AccountRootIdentity S) (n : Nat) (revs : List DeviceRevocation)
    (capabilities : List DeviceCapability) (c : DeviceCertificate) : Prop where
  verified : c.verifyForAccount S R.accountId = .ok ()
  capable : ∀ capability ∈ capabilities, c.hasCapability capability
  below : c.authoritySequence < n
  active : c.deviceId ∉ revs.map (·.deviceId)

theorem verifyDeviceAuthorizationWithSnapshot_eq_ok (h : Snapshotable R n revs) {u : Unit} :
    verifyDeviceAuthorizationWithSnapshot S R.accountId c (R.snapshot n revs) capabilities = .ok u ↔
      Listed R n revs capabilities c := by
  simp only [verifyDeviceAuthorizationWithSnapshot, verifyDeviceAuthorization, ok_iff, forM_eq_ok,
    mem_snapshot_revocations, not_not]
  constructor
  · rintro ⟨_, -, _, hbelow, _, hverified, _, hcapable, hactive⟩
    refine ⟨hverified, hcapable, Nat.not_le.mp hbelow, fun hmem => ?_⟩
    obtain ⟨r, hr, hdevice⟩ := List.mem_map.mp hmem
    obtain ⟨_, -, hne⟩ := hactive r hr
    exact hne hdevice
  · rintro ⟨hverified, hcapable, hbelow, hactive⟩
    refine ⟨(), h.verifyForAccount, (), Nat.not_le.mpr hbelow, (), hverified, (), hcapable, fun r hr => ?_⟩
    exact ⟨(), h.verified r hr, fun hdevice => hactive (List.mem_map.mpr ⟨r, hr, hdevice⟩)⟩

structure Publishable (R : AccountRootIdentity S) (n : Nat) (revs : List DeviceRevocation)
    (certificates : List DeviceCertificate) : Prop where
  nonempty : certificates ≠ []
  few : certificates.length ≤ maxAccountDevices
  listed : ∀ c ∈ certificates, Listed R n revs DeviceCapability.messaging c
  distinct : (certificates.map (·.deviceId)).Nodup

theorem validateAccountDeviceListContent_eq_ok (h : Snapshotable R n revs) {u : Unit} :
    validateAccountDeviceListContent S (R.deviceList n revs certificates).content = .ok u ↔
      Publishable R n revs certificates := by
  have hverify : (R.snapshot n revs).verify S = .ok () := by
    have hfor := h.verifyForAccount
    simp only [AccountAuthoritySnapshot.verifyForAccount, ok_iff] at hfor
    obtain ⟨_, hfor, _⟩ := hfor
    exact hfor
  simp only [validateAccountDeviceListContent, AccountRootIdentity.deviceList, ok_iff, forM_eq_ok,
    mem_sortBy, sortBy_eq_nil, length_sortBy, checkAscending_sortBy, nodup_map_toNat, snapshot_accountId,
    verifyDeviceAuthorizationWithSnapshot_eq_ok h, Nat.not_lt]
  constructor
  · rintro ⟨_, -, _, -, _, hnonempty, _, hfew, _, hlisted, hdistinct⟩
    exact ⟨hnonempty, hfew, hlisted, hdistinct⟩
  · rintro ⟨hnonempty, hfew, hlisted, hdistinct⟩
    exact ⟨(), by simp, (), hverify, (), hnonempty, (), hfew, (), hlisted, hdistinct⟩

theorem issue_deviceList_eq_ok (h : Snapshotable R n revs) :
    AccountDeviceListSnapshot.issue R (R.snapshot n revs) certificates = .ok list ↔
      Publishable R n revs certificates ∧ list = R.deviceList n revs certificates := by
  simp only [AccountDeviceListSnapshot.issue, ok_iff]
  constructor
  · rintro ⟨_, hvalid, _, -, rfl⟩
    exact ⟨(validateAccountDeviceListContent_eq_ok h).mp hvalid, rfl⟩
  · rintro ⟨hvalid, rfl⟩
    exact ⟨(), (validateAccountDeviceListContent_eq_ok h).mpr hvalid, (), by simp, rfl⟩

/-- The list that is there does not stand in the way of a list of the revision. -/
def Admits (S : Signatures) (d : RootDirectory) (list : AccountDeviceListSnapshot) (fresh : Bool) : Prop :=
  ∀ existing, d.deviceList = some existing → existing.verify S = .ok () ∧
    (existing.revision < list.revision ∧ fresh = true ∨ existing = list ∧ fresh = false)

theorem candidate_eq_ok (h : Shows R d n revs) {fresh : Bool} : d.candidate R certificates = .ok (list, fresh) ↔
      Publishable R n revs certificates ∧ list = R.deviceList n revs certificates ∧
        Admits S d list fresh ∧ (d.deviceList = none → fresh = true) := by
  unfold RootDirectory.candidate Admits
  rw [bind_of_ok h.authoritySnapshot]
  simp only [ok_iff, issue_deviceList_eq_ok h.toSnapshotable]
  cases hd : d.deviceList with
  | none =>
    simp only [ok_iff, Prod.mk.injEq, reduceCtorEq, false_imp_iff, implies_true, true_and, forall_const]
    constructor
    · rintro ⟨_, ⟨hlist, rfl⟩, rfl, rfl⟩
      exact ⟨hlist, rfl, rfl⟩
    · rintro ⟨hlist, rfl, rfl⟩
      exact ⟨_, ⟨hlist, rfl⟩, rfl, rfl⟩
  | some existing =>
    simp only [ok_iff, Nat.not_lt, Option.some.injEq, forall_eq', reduceCtorEq, false_imp_iff, and_true]
    constructor
    · rintro ⟨_, ⟨hlist, rfl⟩, _, hverify, _, hle, hrest⟩
      split_ifs at hrest with heq
      · simp only [ok_iff, not_not, Prod.mk.injEq]
          at hrest
        obtain ⟨_, hsame, rfl, rfl⟩ := hrest
        exact ⟨hlist, hsame, hverify, .inr ⟨rfl, rfl⟩⟩
      · simp only [ok_iff, Prod.mk.injEq] at hrest
        obtain ⟨rfl, rfl⟩ := hrest
        exact ⟨hlist, rfl, hverify, .inl ⟨Nat.lt_of_le_of_ne hle heq, rfl⟩⟩
    · rintro ⟨hlist, rfl, hverify, ⟨hlt, rfl⟩ | ⟨rfl, rfl⟩⟩
      · refine ⟨_, ⟨hlist, rfl⟩, (), hverify, (), hlt.le, ?_⟩
        rw [if_neg hlt.ne]
        rfl
      · refine ⟨_, ⟨hlist, rfl⟩, (), hverify, (), le_rfl, ?_⟩
        rw [if_pos rfl, bind_of_ok (failIf_of_not (not_not.mpr rfl) _)]
        rfl

theorem shows_of_candidate {r : AccountDeviceListSnapshot × Bool} (h : d.candidate R certificates = .ok r) :
    ∃ n revs, Shows R d n revs := by
  unfold RootDirectory.candidate at h
  simp only [ok_iff] at h
  obtain ⟨_, hsnapshot, _⟩ := h
  obtain ⟨n, revs, hshows, -⟩ := authoritySnapshot_eq_ok.mp hsnapshot
  exact ⟨n, revs, hshows⟩

namespace RootDirectory

def torn (d : RootDirectory) : RootDirectory := { d with nextSequence := some none }

def advanced (d : RootDirectory) (n : Nat) : RootDirectory :=
  { d with nextSequence := some (some (n + 1)) }

def withTemp (d : RootDirectory) (entry : Option DeviceRevocation) : RootDirectory :=
  { d with revocationTemps := d.revocationTemps ++ [entry] }

def withRevocation (d : RootDirectory) (r : DeviceRevocation) : RootDirectory :=
  { d with revocations := d.revocations ++ [r] }

def withList (d : RootDirectory) (list : AccountDeviceListSnapshot) : RootDirectory :=
  { d with deviceList := some list }

def Ready (d : RootDirectory) : Prop := d.logVersion = some authorityLogVersion

end RootDirectory

variable {α : Type} {s t : RootDirectory} {C : RootDirectory → Prop}
  {E : IdentityError → RootDirectory → Prop}

theorem wp_locked {body : RootProg α} {Q : α → RootDirectory → Prop}
    (h : wp () body (fun a t => C t ∧ Q a t) C E s) : wp () (locked body) Q C E s :=
  wp_bind (wp_tryLock (wp_bind (wp_failIf (fun hnot => absurd rfl hnot) fun _ =>
    wp_bind (h.post fun _ _ ht => wp_bind (wp_act ht.1 (wp_pure ht.2))))))

theorem wp_ensureAuthorityLogReady {Q : Unit → RootDirectory → Prop} (hs : s.Ready) (hQ : Q () s) :
    wp () ensureAuthorityLogReady Q C E s := by
  refine wp_bind (wp_disk ?_)
  rw [hs]
  exact wp_failIf (fun h => absurd rfl h) fun _ => hQ

/-- No sequence can be taken. -/
def RootDirectory.Exhausted (d : RootDirectory) : Prop :=
  ∀ n, d.readNextAuthoritySequence = .ok n → ¬ n + 1 < sequenceBound

theorem wp_allocate {Q : Nat → RootDirectory → Prop}
    (hQ : ∀ n, s.readNextAuthoritySequence = .ok n → n + 1 < sequenceBound → Q n (s.advanced n))
    (hC : C s) (htorn : ∀ n, s.readNextAuthoritySequence = .ok n → C s.torn) (hE : ∀ e, s.Exhausted → E e s) :
    wp () allocateAuthoritySequence Q C E s := by
  refine wp_bind (wp_disk (wp_bind (wp_lift (fun n hn => ?_) fun e he => hE e fun n hn => ?_)))
  · refine wp_bind (wp_failIf (fun hbound => hE _ fun m hm => ?_) fun hbound => ?_)
    · cases hn.symm.trans hm
      exact hbound
    · exact wp_bind (wp_act hC (wp_bind (wp_act (htorn n hn) (wp_pure (hQ n hn (not_not.mp hbound))))))
  · cases he.symm.trans hn

theorem wp_writeRevocation {Q : Unit → RootDirectory → Prop}
    (hQ : ¬ s.hasRevocation r.deviceId → Q () (s.withRevocation r)) (hC : C s) (hnone : C (s.withTemp none))
    (hsome : C (s.withTemp (some r)))
    (hE : ∀ e, r.verify S = .error e ∨ s.hasRevocation r.deviceId → E e s) :
    wp () (writeRevocation (S := S) r) Q C E s := by
  refine wp_bind (wp_lift (fun _ _ => ?_) fun e he => hE e (.inl he))
  refine wp_bind (wp_act hC (wp_bind (wp_act hnone ?_)))
  simp only [List.dropLast_concat]
  refine wp_bind (wp_disk ?_)
  split_ifs with hexists
  · refine wp_bind (wp_act hsome (wp_fail ?_))
    simp only [List.dropLast_concat]
    exact hE _ (.inr hexists)
  · refine wp_act hsome ?_
    simp only [List.dropLast_concat]
    exact hQ hexists

/-- The certificates were published, or were so before. -/
structure Published (R : AccountRootIdentity S) (s : RootDirectory) (certificates : List DeviceCertificate)
    (n : Nat) (revs : List DeviceRevocation) (t : RootDirectory) : Prop where
  shows_start : Shows R s n revs
  publishable : Publishable R n revs certificates
  written : t = s.withList (R.deviceList n revs certificates)
  newer : ∀ existing, s.deviceList = some existing → existing.verify S = .ok () ∧
    (existing.revision < n ∨ existing = R.deviceList n revs certificates)

theorem wp_publish {Q : AccountDeviceListSnapshot → RootDirectory → Prop}
    (hQ : ∀ n revs t, Published R s certificates n revs t → Q (R.deviceList n revs certificates) t)
    (hC : C s) (hE : ∀ e, E e s) : wp () (publishDeviceListUnlocked R certificates) Q C E s := by
  refine wp_bind (wp_disk (wp_bind (wp_lift (fun r hr => ?_) fun e _ => hE e)))
  obtain ⟨list, fresh⟩ := r
  obtain ⟨n, revs, hshows⟩ := shows_of_candidate hr
  obtain ⟨hpublishable, rfl, hadmits, hnone⟩ := (candidate_eq_ok hshows).mp hr
  have hnewer : ∀ existing, s.deviceList = some existing → existing.verify S = .ok () ∧
      (existing.revision < n ∨ existing = R.deviceList n revs certificates) := by
    intro existing hexisting
    obtain ⟨hverify, ⟨hlt, -⟩ | ⟨heq, -⟩⟩ := hadmits existing hexisting
    · exact ⟨hverify, .inl hlt⟩
    · exact ⟨hverify, .inr heq⟩
  refine wp_bind (wp_when (fun hfresh => ?_) fun hfresh => wp_pure ?_)
  · refine wp_bind (wp_lift (fun _ _ => wp_act hC (wp_pure ?_)) fun e _ => hE e)
    exact hQ n revs _ ⟨hshows, hpublishable, rfl, hnewer⟩
  · refine hQ n revs s ⟨hshows, hpublishable, ?_, hnewer⟩
    -- where nothing is written the list was there
    cases hd : s.deviceList with
    | none => exact absurd (hnone hd) hfresh
    | some existing =>
      obtain ⟨-, ⟨-, htrue⟩ | ⟨rfl, -⟩⟩ := hadmits existing hd
      · exact absurd htrue hfresh
      · unfold RootDirectory.withList
        rw [← hd]

/-- The files that a snapshot is read from. -/
def RootDirectory.log (d : RootDirectory) :
    Option (Option Nat) × List DeviceRevocation × List (Option DeviceRevocation) :=
  (d.nextSequence, d.revocations, d.revocationTemps)

theorem next_of_log (h : t.log = s.log) : t.readNextAuthoritySequence = s.readNextAuthoritySequence := by
  simp only [RootDirectory.log, Prod.mk.injEq] at h
  simp only [RootDirectory.readNextAuthoritySequence, h.1]

theorem entries_of_log (h : t.log = s.log) : t.revocationEntries = s.revocationEntries := by
  simp only [RootDirectory.log, Prod.mk.injEq] at h
  simp only [RootDirectory.revocationEntries, h.2.1, h.2.2]

theorem Shows.of_log (hs : Shows R s n revs) (h : t.log = s.log) : Shows R t n revs :=
  ⟨hs.toSnapshotable, (next_of_log h).trans hs.next, (entries_of_log h).trans hs.entries⟩

/-- The sequence at the start is used at most once, and for one revocation at most. -/
inductive LogChange (R : AccountRootIdentity S) (s t : RootDirectory) : Prop
  | same (h : t.log = s.log)
  | torn (n : Nat) (hn : s.readNextAuthoritySequence = .ok n) (h : t.log = s.torn.log)
  | advanced (n : Nat) (hn : s.readNextAuthoritySequence = .ok n) (h : t.log = (s.advanced n).log)
  | temp (n : Nat) (hn : s.readNextAuthoritySequence = .ok n) (entry : Option DeviceRevocation)
      (hentry : ∀ r, entry = some r → ∃ device, r = DeviceRevocation.issue R device n)
      (h : t.log = ((s.advanced n).withTemp entry).log)
  | revoked (n : Nat) (hn : s.readNextAuthoritySequence = .ok n) (device : Id)
      (h : t.log = ((s.advanced n).withRevocation (DeviceRevocation.issue R device n)).log)

/-- The list on the disk is the one of the log on the disk, and newer than the one before. -/
def ListChange (R : AccountRootIdentity S) (s t : RootDirectory) : Prop :=
  t.deviceList = s.deviceList ∨ ∃ n revs certificates, Shows R t n revs ∧
    Publishable R n revs certificates ∧ t.deviceList = some (R.deviceList n revs certificates) ∧
    ∀ existing, s.deviceList = some existing → existing.revision < n

structure Change (R : AccountRootIdentity S) (s t : RootDirectory) : Prop where
  ready : t.Ready
  log : LogChange R s t
  list : ListChange R s t

theorem Change.refl (hs : s.Ready) : Change R s s := ⟨hs, .same rfl, .inl rfl⟩

theorem Change.of_log (hs : s.Ready) (hversion : t.logVersion = s.logVersion) (h : LogChange R s t)
    (hlist : t.deviceList = s.deviceList) : Change R s t :=
  ⟨hversion.trans hs, h, .inl hlist⟩

theorem Change.memberships (hs : s.Ready) (l : List ConversationMembershipSnapshot) :
    Change R s { s with memberships := l } :=
  .of_log hs rfl (.same rfl) rfl

theorem Change.publish {u : RootDirectory} (h : Change R s u) (hlist : u.deviceList = s.deviceList)
    (hp : Published R u certificates n revs t) : Change R s t := by
  obtain ⟨hshows, hpublishable, rfl, hnewer⟩ := hp
  refine ⟨h.ready, ?_, ?_⟩
  · cases h.log with
    | same h => exact .same h
    | torn m hm h => exact .torn m hm h
    | advanced m hm h => exact .advanced m hm h
    | temp m hm entry hentry h => exact .temp m hm entry hentry h
    | revoked m hm device h => exact .revoked m hm device h
  · by_cases hsame : s.deviceList = some (R.deviceList n revs certificates)
    · exact .inl hsame.symm
    · refine .inr ⟨n, revs, certificates, hshows.of_log rfl, hpublishable, rfl, fun existing hex => ?_⟩
      rcases (hnewer existing (hlist.trans hex)).2 with hlt | rfl
      · exact hlt
      · exact absurd hex hsame

/-- What the root signs with an authority sequence. -/
inductive AuthorityObject where
  | certificate (certificate : DeviceCertificate)
  | revocation (revocation : DeviceRevocation)

def AuthorityObject.sequence : AuthorityObject → Nat
  | .certificate c => c.authoritySequence
  | .revocation r => r.authoritySequence

/-- The operation returns an object. -/
inductive Issues : RootOperation → RootAnswer → AuthorityObject → Prop
  | certificate (device key : Id) (capabilities : List DeviceCapability) (c : DeviceCertificate) :
      Issues (.issueDeviceCertificate device key capabilities) (.certificate c) (.certificate c)
  | revocation (device : Id) (r : DeviceRevocation) : Issues (.revokeDevice device) (.revocation r) (.revocation r)
  | removed (device : Id) (r : DeviceRevocation) (list : AccountDeviceListSnapshot) :
      Issues (.revokeAndPublishDeviceList device) (.removed r list) (.revocation r)

def RootDirectory.listed (d : RootDirectory) : List DeviceCertificate := (d.deviceList.map (·.devices)).getD []

/-- The certificate that an operation makes with a sequence. -/
def RootOperation.Makes (R : AccountRootIdentity S) (n : Nat) (c : DeviceCertificate) : RootOperation → Prop
  | .issueDeviceCertificate device key capabilities =>
    DeviceCertificate.issue R device key n capabilities = .ok c
  | .enrollDevice device key capabilities =>
    DeviceCertificate.issue R device key n (canonicalCapabilities capabilities) = .ok c
  | _ => False

/-- A certificate uses the sequence of the start; a revocation lies in the directory. -/
def Held (R : AccountRootIdentity S) (operation : RootOperation) (s t : RootDirectory) : AuthorityObject → Prop
  | .certificate c => ∃ n, s.readNextAuthoritySequence = .ok n ∧ t.log = (s.advanced n).log ∧ operation.Makes R n c
  | .revocation r => some r ∈ t.revocationEntries

def RootAnswer.deviceList : RootAnswer → Option AccountDeviceListSnapshot
  | .enrolled _ published => some published
  | .removed _ published => some published
  | .list published => some published
  | _ => none

structure Answers (R : AccountRootIdentity S) (operation : RootOperation) (s : RootDirectory) (a : RootAnswer)
    (t : RootDirectory) : Prop where
  held : ∀ x, Issues operation a x → Held R operation s t x
  listed : ∀ list, a.deviceList = some list → t.deviceList = some list
  shown : ∀ snapshot, a = .snapshot snapshot → t.authoritySnapshot R = .ok snapshot

theorem authoritySequence_of_issue {key : Id} (h : DeviceCertificate.issue R device key n capabilities = .ok c) :
    c.authoritySequence = n := by
  simp only [DeviceCertificate.issue, ok_iff] at h
  obtain ⟨_, -, _, -, rfl⟩ := h
  rfl

theorem wp_issueCertificate {Q : DeviceCertificate → RootDirectory → Prop} {key : Id}
    (hQ : ∀ n c, s.readNextAuthoritySequence = .ok n → n + 1 < sequenceBound →
      DeviceCertificate.issue R device key n capabilities = .ok c → Q c (s.advanced n))
    (hC : C s) (htorn : ∀ n, s.readNextAuthoritySequence = .ok n → C s.torn) (hE : ∀ e, s.Exhausted → E e s)
    (hE' : ∀ n e, s.readNextAuthoritySequence = .ok n →
      DeviceCertificate.issue R device key n capabilities = .error e → E e (s.advanced n)) :
    wp () (issueDeviceCertificateUnlocked R device key capabilities) Q C E s := by
  refine wp_bind (wp_allocate (fun n hn hbound => ?_) hC htorn hE)
  exact wp_lift (fun c hc => hQ n c hn hbound hc) fun e he => hE' n e hn he

inductive RevocationCut (R : AccountRootIdentity S) (device : Id) (s : RootDirectory) : RootDirectory → Prop
  | start : RevocationCut R device s s
  | torn (n : Nat) (hn : s.readNextAuthoritySequence = .ok n) : RevocationCut R device s s.torn
  | advanced (n : Nat) (hn : s.readNextAuthoritySequence = .ok n) : RevocationCut R device s (s.advanced n)
  | temp (n : Nat) (hn : s.readNextAuthoritySequence = .ok n) (entry : Option DeviceRevocation)
      (hentry : ∀ r, entry = some r → r = DeviceRevocation.issue R device n) :
      RevocationCut R device s ((s.advanced n).withTemp entry)

theorem Change.of_cut (hs : s.Ready) (h : RevocationCut R device s t) : Change R s t := by
  cases h with
  | start => exact .refl hs
  | torn n hn => exact .of_log hs rfl (.torn n hn rfl) rfl
  | advanced n hn => exact .of_log hs rfl (.advanced n hn rfl) rfl
  | temp n hn entry hentry =>
    exact .of_log hs rfl (.temp n hn entry (fun r hr => ⟨device, hentry r hr⟩) rfl) rfl

theorem wp_issueRevocation {Q : DeviceRevocation → RootDirectory → Prop}
    (hQ : ∀ n, s.readNextAuthoritySequence = .ok n → n + 1 < sequenceBound → ¬ s.hasRevocation device →
      Q (DeviceRevocation.issue R device n)
        ((s.advanced n).withRevocation (DeviceRevocation.issue R device n)))
    (hC : ∀ t, RevocationCut R device s t → C t)
    (hE : ∀ e t, RevocationCut R device s t → s.Exhausted ∨ s.hasRevocation device → E e t) :
    wp () (issueDeviceRevocationUnlocked R device) Q C E s := by
  refine wp_bind (wp_allocate (fun n hn hbound => ?_) (hC s .start) (fun n hn => hC _ (.torn n hn))
    fun e he => hE e s .start (.inl he))
  refine wp_bind (wp_writeRevocation (fun hnew => wp_pure (hQ n hn hbound hnew)) ?_ ?_ ?_ fun e he => ?_)
  · exact hC _ (.advanced n hn)
  · exact hC _ (.temp n hn none (by simp))
  · exact hC _ (.temp n hn (some _) fun r hr => (Option.some.inj hr).symm)
  · rcases he with he | he
    · cases (issue_revocation_verify device n).symm.trans he
    · exact hE e _ (.advanced n hn) (.inr he)

variable (R) in
/-- What a run of an operation does, wherever it ends. -/
def Runs (operation : RootOperation) (s : RootDirectory) : Prop :=
  wp () (operation.run R) (fun a t => Change R s t ∧ Answers R operation s a t) (Change R s)
    (fun _ t => Change R s t) s

theorem runs_issueDeviceCertificate (hs : s.Ready) (device key : Id) (capabilities : List DeviceCapability) :
    Runs R (.issueDeviceCertificate device key capabilities) s := by
  refine wp_bind (wp_ensureAuthorityLogReady hs (wp_bind (wp_lift (fun _ _ => ?_) fun _ _ => Change.refl hs)))
  refine wp_locked (wp_bind (wp_issueCertificate (fun n c hn _ hc => wp_pure ?_) (Change.refl hs)
    (fun n hn => ?_) (fun _ _ => Change.refl hs) fun n _ hn _ => ?_))
  · have hchange : Change R s (s.advanced n) := .of_log hs rfl (.advanced n hn rfl) rfl
    refine ⟨hchange, hchange, ?_, by simp [RootAnswer.deviceList], by simp⟩
    rintro _ ⟨⟩
    exact ⟨n, hn, rfl, hc⟩
  · exact .of_log hs rfl (.torn n hn rfl) rfl
  · exact .of_log hs rfl (.advanced n hn rfl) rfl

theorem mem_entries_withRevocation (d : RootDirectory) (r : DeviceRevocation) :
    some r ∈ (d.withRevocation r).revocationEntries := by
  simp [RootDirectory.revocationEntries, RootDirectory.withRevocation]

theorem runs_revokeDevice (hs : s.Ready) (device : Id) : Runs R (.revokeDevice device) s := by
  refine wp_bind (wp_ensureAuthorityLogReady hs (wp_locked (wp_bind (wp_disk (wp_bind (wp_failIf
    (fun _ => Change.refl hs) fun _ => ?_))))))
  refine wp_bind (wp_issueRevocation (fun n hn _ _ => wp_pure ?_) (fun _ => .of_cut hs) fun _ _ h _ => .of_cut hs h)
  have hchange : Change R s ((s.advanced n).withRevocation (DeviceRevocation.issue R device n)) :=
    .of_log hs rfl (.revoked n hn device rfl) rfl
  refine ⟨hchange, hchange, ?_, by simp [RootAnswer.deviceList], by simp⟩
  rintro _ ⟨⟩
  exact mem_entries_withRevocation _ _

theorem runs_authoritySnapshot (hs : s.Ready) : Runs R .authoritySnapshot s := by
  refine wp_bind (wp_ensureAuthorityLogReady hs (wp_bind (wp_disk (wp_bind (wp_lift (fun snapshot h => ?_)
    fun _ _ => Change.refl hs)))))
  refine wp_pure ⟨Change.refl hs, ?_, by simp [RootAnswer.deviceList], ?_⟩
  · rintro _ ⟨⟩
  · rintro _ ⟨⟩
    exact h

theorem runs_publishDeviceList (hs : s.Ready) (certificates : List DeviceCertificate) :
    Runs R (.publishDeviceList certificates) s := by
  refine wp_bind (wp_ensureAuthorityLogReady hs (wp_locked (wp_bind (wp_publish (fun n revs t hp => ?_)
    (Change.refl hs) fun _ => Change.refl hs))))
  have hchange : Change R s t := (Change.refl hs).publish rfl hp
  refine wp_pure ⟨hchange, hchange, ?_, ?_, by simp⟩
  · rintro _ ⟨⟩
  · rintro _ ⟨⟩
    rw [hp.written]
    rfl

/-- The certificates that are published again. -/
def EnrollmentPlan.kept : EnrollmentPlan → List DeviceCertificate
  | .keep _ list => list.devices
  | .refresh _ active => active
  | .issue others => others

theorem of_planEnrollment {key : Id} {plan : EnrollmentPlan}
    (h : s.planEnrollment R device key capabilities = .ok plan) :
    (∀ existing list, plan = .keep existing list → s.deviceList = some list) ∧ ∀ c ∈ plan.kept, c ∈ s.listed := by
  simp only [RootDirectory.planEnrollment, RootDirectory.publishedDeviceList, ok_iff] at h
  obtain ⟨_, ⟨current, hcurrent, _, -, rfl⟩, authority, -, h⟩ := h
  have hlisted : s.listed = current.devices := by simp [RootDirectory.listed, hcurrent]
  rw [hlisted]
  cases hfor : current.certificateFor device with
  | none =>
    simp only [hfor, ok_iff] at h
    obtain ⟨_, -, _, -, rfl⟩ := h
    exact ⟨by simp, fun c hc => List.mem_of_mem_filter hc⟩
  | some existing =>
    simp only [hfor, ok_iff] at h
    obtain ⟨_, -, _, -, h⟩ := h
    split_ifs at h <;> cases h
    · refine ⟨?_, fun c hc => hc⟩
      rintro _ _ ⟨⟩
      exact hcurrent
    · exact ⟨by simp, fun c hc => List.mem_of_mem_filter hc⟩

theorem runs_enrollDevice (hs : s.Ready) (device key : Id) (capabilities : List DeviceCapability) :
    Runs R (.enrollDevice device key capabilities) s := by
  refine wp_bind (wp_ensureAuthorityLogReady hs (wp_bind (wp_lift (fun _ _ => ?_) fun _ _ => Change.refl hs)))
  refine wp_locked (wp_bind (wp_disk (wp_bind (wp_lift (fun plan hplan => ?_) fun _ _ => Change.refl hs))))
  cases plan with
  | keep existing list =>
    refine wp_pure ⟨Change.refl hs, Change.refl hs, ?_, ?_, by simp⟩
    · rintro _ ⟨⟩
    · rintro _ ⟨⟩
      exact (of_planEnrollment hplan).1 existing _ rfl
  | refresh existing active =>
    refine wp_bind (wp_publish (fun n revs t hp => ?_) (Change.refl hs) fun _ => Change.refl hs)
    have hchange : Change R s t := (Change.refl hs).publish rfl hp
    refine wp_pure ⟨hchange, hchange, ?_, ?_, by simp⟩
    · rintro _ ⟨⟩
    · rintro _ ⟨⟩
      rw [hp.written]
      rfl
  | issue others =>
    refine wp_bind (wp_issueCertificate (fun n c hn _ hc => ?_) (Change.refl hs)
      (fun n hn => .of_log hs rfl (.torn n hn rfl) rfl) (fun _ _ => Change.refl hs)
      fun n _ hn _ => .of_log hs rfl (.advanced n hn rfl) rfl)
    have hadvanced : Change R s (s.advanced n) := .of_log hs rfl (.advanced n hn rfl) rfl
    refine wp_bind (wp_publish (fun m revs t hp => ?_) hadvanced fun _ => hadvanced)
    have hchange : Change R s t := hadvanced.publish rfl hp
    refine wp_pure ⟨hchange, hchange, ?_, ?_, by simp⟩
    · rintro _ ⟨⟩
    · rintro _ ⟨⟩
      rw [hp.written]
      rfl

theorem runs_createConversationMembership (hs : s.Ready) (conversation : Id) (members : List Id) :
    Runs R (.createConversationMembership conversation members) s := by
  refine wp_bind (wp_ensureAuthorityLogReady hs (wp_locked (wp_bind (wp_disk (wp_bind (wp_failIf
    (fun _ => Change.refl hs) fun _ => ?_))))))
  refine wp_bind (wp_lift (fun membership _ => ?_) fun _ _ => Change.refl hs)
  refine wp_bind (wp_lift (fun _ _ => ?_) fun _ _ => Change.refl hs)
  refine wp_bind (wp_act (Change.refl hs) (wp_pure ⟨Change.memberships hs _, Change.memberships hs _, ?_,
    by simp [RootAnswer.deviceList], by simp⟩))
  rintro _ ⟨⟩

theorem runs_addConversationMembers (hs : s.Ready) (conversation : Id) (additions : List Id) :
    Runs R (.addConversationMembers conversation additions) s := by
  refine wp_bind (wp_ensureAuthorityLogReady hs (wp_locked (wp_bind (wp_disk (wp_bind (wp_lift
    (fun current _ => ?_) fun _ _ => Change.refl hs))))))
  dsimp only
  split_ifs with hsame
  · refine wp_pure ⟨Change.refl hs, Change.refl hs, ?_, by simp [RootAnswer.deviceList], by simp⟩
    rintro _ ⟨⟩
  · refine wp_bind (wp_failIf (fun _ => Change.refl hs) fun _ => ?_)
    refine wp_bind (wp_lift (fun membership _ => ?_) fun _ _ => Change.refl hs)
    refine wp_bind (wp_lift (fun _ _ => ?_) fun _ _ => Change.refl hs)
    refine wp_bind (wp_act (Change.refl hs) (wp_pure ⟨Change.memberships hs _, Change.memberships hs _, ?_,
      by simp [RootAnswer.deviceList], by simp⟩))
    rintro _ ⟨⟩

theorem of_planRemoval
    {existing : Option DeviceRevocation} (h : s.planRemoval R device = .ok (current, existing)) :
    s.deviceList = some current ∧ ∀ r, existing = some r → some r ∈ s.revocationEntries := by
  simp only [RootDirectory.planRemoval, RootDirectory.publishedDeviceList, ok_iff, Prod.mk.injEq] at h
  obtain ⟨_, ⟨_, hcurrent, _, -, rfl⟩, authority, hauthority, _, -, _, -, rfl, rfl⟩ := h
  refine ⟨hcurrent, fun r hr => ?_⟩
  obtain ⟨n, revs, hshows, rfl⟩ := authoritySnapshot_eq_ok.mp hauthority
  rw [hshows.entries]
  exact List.mem_map_of_mem (mem_snapshot_revocations.mp (List.mem_of_find?_eq_some hr))

/-- The part of a removal after its revocation. -/
def finishRemoval (R : AccountRootIdentity S) (device : Id) (current : AccountDeviceListSnapshot)
    (r : DeviceRevocation) : RootProg RootAnswer := do
  let d ← disk
  let authority ← lift (d.authoritySnapshot R)
  failIf (current.active authority = []) .cannotRemoveLastActiveDevice
  if current.revision = authority.revision ∧ current.certificateFor device = none then
    return .removed r current
  else
    let list ← publishDeviceListUnlocked R (current.active authority)
    return .removed r list

/-- The list stood already, or the active devices were published. -/
def Finished (R : AccountRootIdentity S) (device : Id) (current : AccountDeviceListSnapshot)
    (u : RootDirectory) (list : AccountDeviceListSnapshot) (t : RootDirectory) : Prop :=
  ∃ m revs, Shows R u m revs ∧ current.active (R.snapshot m revs) ≠ [] ∧
    (current.revision = m ∧ current.certificateFor device = none ∧ list = current ∧ t = u ∨
      Published R u (current.active (R.snapshot m revs)) m revs t ∧
        list = R.deviceList m revs (current.active (R.snapshot m revs)))

theorem wp_finishRemoval {Q : RootAnswer → RootDirectory → Prop}
    (hQ : ∀ list t, Finished R device current s list t → Q (.removed r list) t) (hC : C s)
    (hE : ∀ e, E e s) : wp () (finishRemoval R device current r) Q C E s := by
  refine wp_bind (wp_disk (wp_bind (wp_lift (fun authority hauthority => ?_) fun e _ => hE e)))
  obtain ⟨m, revs, hshows, rfl⟩ := authoritySnapshot_eq_ok.mp hauthority
  refine wp_bind (wp_failIf (fun _ => hE _) fun hactive => ?_)
  split_ifs with hdone
  · exact wp_pure (hQ current s ⟨m, revs, hshows, hactive, .inl ⟨hdone.1, hdone.2, rfl, rfl⟩⟩)
  · refine wp_bind (wp_publish (fun n revs' t hp => ?_) hC hE)
    obtain ⟨rfl, rfl⟩ := hshows.unique hp.shows_start
    exact wp_pure (hQ _ t ⟨m, revs, hshows, hactive, .inr ⟨hp, rfl⟩⟩)

theorem Finished.answers {u : RootDirectory} (h : Finished R device current u list t) (hcurrent : s.deviceList = some current)
    (hchange : Change R s u) (hlist : u.deviceList = s.deviceList) (hr : some r ∈ u.revocationEntries) :
    Change R s t ∧ Answers R (.revokeAndPublishDeviceList device) s (.removed r list) t := by
  obtain ⟨m, revs, -, -, ⟨-, -, rfl, rfl⟩ | ⟨hp, rfl⟩⟩ := h
  · refine ⟨hchange, ?_, ?_, by simp⟩
    · rintro _ ⟨⟩
      exact hr
    · rintro _ ⟨⟩
      exact hlist.trans hcurrent
  · refine ⟨hchange.publish hlist hp, ?_, ?_, by simp⟩
    · rintro _ ⟨⟩
      rw [hp.written]
      exact hr
    · rintro _ ⟨⟩
      rw [hp.written]
      rfl

theorem runs_revokeAndPublishDeviceList (hs : s.Ready) (device : Id) :
    Runs R (.revokeAndPublishDeviceList device) s := by
  refine wp_bind (wp_ensureAuthorityLogReady hs (wp_locked (wp_bind (wp_disk (wp_bind (wp_lift
    (fun plan hplan => ?_) fun _ _ => Change.refl hs))))))
  obtain ⟨current, existing⟩ := plan
  obtain ⟨hcurrent, hexisting⟩ := of_planRemoval hplan
  -- the rest is the same from wherever the revocation is in place
  have hfinish {u : RootDirectory} {r : DeviceRevocation} (hchange : Change R s u)
      (hlist : u.deviceList = s.deviceList) (hr : some r ∈ u.revocationEntries) :
      wp () (finishRemoval R device current r)
        (fun a t => Change R s t ∧ Change R s t ∧ Answers R (.revokeAndPublishDeviceList device) s a t)
        (Change R s) (fun _ t => Change R s t) u :=
    wp_finishRemoval (fun list t h =>
      ⟨(h.answers hcurrent hchange hlist hr).1, h.answers hcurrent hchange hlist hr⟩) hchange fun _ => hchange
  cases existing with
  | some r => exact wp_bind (wp_pure (hfinish (Change.refl hs) rfl (hexisting r rfl)))
  | none =>
    refine wp_bind (wp_issueRevocation (fun n hn _ _ => ?_) (fun _ => .of_cut hs) fun _ _ h _ => .of_cut hs h)
    exact hfinish (.of_log hs rfl (.revoked n hn device rfl) rfl) rfl (mem_entries_withRevocation _ _)

theorem runs (hs : s.Ready) (operation : RootOperation) : Runs R operation s := by
  cases operation with
  | enrollDevice => exact runs_enrollDevice hs _ _ _
  | issueDeviceCertificate => exact runs_issueDeviceCertificate hs _ _ _
  | revokeDevice => exact runs_revokeDevice hs _
  | revokeAndPublishDeviceList => exact runs_revokeAndPublishDeviceList hs _
  | authoritySnapshot => exact runs_authoritySnapshot hs
  | publishDeviceList => exact runs_publishDeviceList hs _
  | createConversationMembership => exact runs_createConversationMembership hs _ _
  | addConversationMembers => exact runs_addConversationMembers hs _ _

theorem serve_change (hs : s.Ready) (call : RootCall) : Change R s ((rootService R).serve call s).2 :=
  wp.served ((runs hs call.operation).mono (fun _ _ h => h.1) (fun _ h => h) fun _ _ h => h) call.power

end
end Kilogram.Identity
