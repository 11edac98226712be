import Kilogram.Identity.RootSteps

/-!
# The history of an account root

Along any sequence of operations, each of which may lose its power, the revision of the log does not go
back, a log of the same revision is the same, no revocation is lost, and a list is only replaced by one
of a higher revision.
-/

namespace Kilogram.Identity
open Crash
variable {S : Signatures} {R : AccountRootIdentity S} {s t u : RootDirectory}

structure Later (s t : RootDirectory) : Prop where
  revision : ∀ m, t.readNextAuthoritySequence = .ok m →
    ∃ n, s.readNextAuthoritySequence = .ok n ∧ n ≤ m ∧ (n = m → t.log = s.log)
  kept : ∀ entry ∈ s.revocationEntries, entry ∈ t.revocationEntries
  list : ∀ l, s.deviceList = some l → ∃ l', t.deviceList = some l' ∧ (l' = l ∨ l.revision < l'.revision)

theorem Later.refl (s : RootDirectory) : Later s s :=
  ⟨fun m hm => ⟨m, hm, le_rfl, fun _ => rfl⟩, fun _ h => h, fun l hl => ⟨l, hl, .inl rfl⟩⟩

theorem Later.trans (hst : Later s t) (htu : Later t u) : Later s u := by
  refine ⟨fun m hm => ?_, fun entry hentry => htu.kept entry (hst.kept entry hentry), fun l hl => ?_⟩
  · obtain ⟨k, hk, hkm, hktu⟩ := htu.revision m hm
    obtain ⟨n, hn, hnk, hnst⟩ := hst.revision k hk
    refine ⟨n, hn, hnk.trans hkm, fun hnm => ?_⟩
    rw [hktu (by omega), hnst (by omega)]
  · obtain ⟨l', hl', hle⟩ := hst.list l hl
    obtain ⟨l'', hl'', hle'⟩ := htu.list l' hl'
    refine ⟨l'', hl'', ?_⟩
    rcases hle with rfl | hlt
    · exact hle'
    · rcases hle' with rfl | hlt'
      · exact .inr hlt
      · exact .inr (hlt.trans hlt')

@[simp] theorem next_torn : s.torn.readNextAuthoritySequence = .error .invalidSequence := rfl
@[simp] theorem next_advanced (n : Nat) : (s.advanced n).readNextAuthoritySequence = .ok (n + 1) := rfl

@[simp] theorem next_withTemp (entry : Option DeviceRevocation) :
    (s.withTemp entry).readNextAuthoritySequence = s.readNextAuthoritySequence := rfl

@[simp] theorem next_withRevocation (r : DeviceRevocation) :
    (s.withRevocation r).readNextAuthoritySequence = s.readNextAuthoritySequence := rfl

@[simp] theorem entries_torn : s.torn.revocationEntries = s.revocationEntries := rfl
@[simp] theorem entries_advanced (n : Nat) : (s.advanced n).revocationEntries = s.revocationEntries := rfl

@[simp] theorem mem_entries_withTemp {entry entry' : Option DeviceRevocation} :
    entry' ∈ (s.withTemp entry).revocationEntries ↔ entry' ∈ s.revocationEntries ∨ entry' = entry := by
  simp [RootDirectory.revocationEntries, RootDirectory.withTemp, or_assoc]

@[simp] theorem mem_entries_withRevocation_iff {r : DeviceRevocation} {entry : Option DeviceRevocation} :
    entry ∈ (s.withRevocation r).revocationEntries ↔ entry ∈ s.revocationEntries ∨ entry = some r := by
  simp only [RootDirectory.revocationEntries, RootDirectory.withRevocation, List.map_append,
    List.map_cons, List.map_nil, List.mem_append, List.mem_singleton]
  tauto

/-- What the log is after a change: the same, unreadable, or one sequence further with at most one
entry more, which holds a revocation of that sequence if it holds any. -/
theorem LogChange.cases (h : LogChange R s t) : t.log = s.log ∨
    (∃ e, t.readNextAuthoritySequence = .error e) ∧ t.revocationEntries = s.revocationEntries ∨
    ∃ n, s.readNextAuthoritySequence = .ok n ∧ t.readNextAuthoritySequence = .ok (n + 1) ∧
      ∃ added : Option (Option DeviceRevocation),
        (∀ entry, entry ∈ t.revocationEntries ↔ entry ∈ s.revocationEntries ∨ some entry = added) ∧
        ∀ r, added = some (some r) → r.authoritySequence = n := by
  cases h with
  | same h => exact .inl h
  | torn n hn h =>
    refine .inr (.inl ⟨⟨.invalidSequence, ?_⟩, ?_⟩)
    · exact next_of_log h
    · exact (entries_of_log h).trans entries_torn
  | advanced n hn h =>
    refine .inr (.inr ⟨n, hn, next_of_log h, none, ?_, by simp⟩)
    simp [entries_of_log h]
  | temp n hn entry hentry h =>
    refine .inr (.inr ⟨n, hn, next_of_log h, some entry, ?_, ?_⟩)
    · simp [entries_of_log h]
    · intro r hr
      obtain ⟨device, rfl⟩ := hentry r (Option.some.inj hr)
      rfl
  | revoked n hn device h =>
    refine .inr (.inr ⟨n, hn, next_of_log h, some (some (.issue R device n)), ?_, ?_⟩)
    · simp [entries_of_log h]
    · intro r hr
      cases Option.some.inj hr
      rfl

theorem Change.later (h : Change R s t) : Later s t := by
  refine ⟨fun m hm => ?_, fun entry hentry => ?_, fun l hl => ?_⟩
  · obtain hlog | ⟨⟨e, he⟩, -⟩ | ⟨n, hn, hn', -⟩ := h.log.cases
    · exact ⟨m, (next_of_log hlog).symm.trans hm, le_rfl, fun _ => hlog⟩
    · cases hm.symm.trans he
    · have hmn : m = n + 1 := Except.ok.inj (hm.symm.trans hn')
      exact ⟨n, hn, by omega, fun heq => by omega⟩
  · obtain hlog | ⟨-, hentries⟩ | ⟨n, -, -, added, hadded, -⟩ := h.log.cases
    · rw [entries_of_log hlog]
      exact hentry
    · rw [hentries]
      exact hentry
    · exact (hadded entry).mpr (.inl hentry)
  · obtain hsame | ⟨n, revs, certificates, -, -, hlist, hnewer⟩ := h.list
    · exact ⟨l, hsame.trans hl, .inl rfl⟩
    · exact ⟨_, hlist, .inr (hnewer l hl)⟩

theorem ready_after (calls : List RootCall) : ((rootService R).after calls).Ready :=
  have hcreated : (rootService R).start.Ready := rfl
  Service.invariant hcreated (fun _ call h => (serve_change h call).ready) calls

theorem later_after (before rest : List RootCall) :
    Later ((rootService R).after before) ((rootService R).after (before ++ rest)) := by
  refine Service.since (I := fun t => Later ((rootService R).after before) t) (Later.refl _) ?_
  intro mid call _ _ h
  exact h.trans (serve_change (ready_after _) call).later

variable {calls : List RootCall} {l : AccountDeviceListSnapshot}

theorem later_or_later {before₁ before₂ : List RootCall} (h₁ : before₁ <+: calls) (h₂ : before₂ <+: calls) :
    Later ((rootService R).after before₁) ((rootService R).after before₂) ∨
      Later ((rootService R).after before₂) ((rootService R).after before₁) := by
  obtain ⟨rest, rfl⟩ | ⟨rest, rfl⟩ := List.prefix_or_prefix_of_prefix h₁ h₂
  · exact .inl (later_after before₁ rest)
  · exact .inr (later_after before₂ rest)

/-- A snapshot that the root gives between two operations, or that stands in a published list. -/
def IssuedSnapshot (R : AccountRootIdentity S) (calls : List RootCall) (snapshot : AccountAuthoritySnapshot) : Prop :=
  ∃ before, before <+: calls ∧ (((rootService R).after before).authoritySnapshot R = .ok snapshot ∨
      ∃ list, ((rootService R).after before).deviceList = some list ∧ list.content.authoritySnapshot = snapshot)

/-- Every list was published at a moment whose log it shows. -/
theorem published_at (calls : List RootCall) {list : AccountDeviceListSnapshot}
    (h : ((rootService R).after calls).deviceList = some list) :
    ∃ before n revs certificates, before <+: calls ∧ Shows R ((rootService R).after before) n revs ∧
      Publishable R n revs certificates ∧ list = R.deviceList n revs certificates := by
  induction calls using List.reverseRecOn with
  | nil => exact absurd h (by simp [rootService, serial, RootDirectory.created])
  | append_singleton calls call ih =>
    rw [Service.after_concat] at h
    obtain hsame | ⟨n, revs, certificates, hshows, hpublishable, hlist, -⟩ :=
      (serve_change (R := R) (ready_after calls) call).list
    · obtain ⟨before, n, revs, certificates, hbefore, hrest⟩ := ih (hsame.symm.trans h)
      exact ⟨before, n, revs, certificates, hbefore.trans (List.prefix_append _ _), hrest⟩
    · refine ⟨calls ++ [call], n, revs, certificates, List.prefix_rfl, ?_, hpublishable,
        Option.some.inj (h.symm.trans hlist)⟩
      rw [Service.after_concat]
      exact hshows

theorem shown_of_issued {snapshot : AccountAuthoritySnapshot}
    (h : IssuedSnapshot R calls snapshot) : ∃ before n revs, before <+: calls ∧
      Shows R ((rootService R).after before) n revs ∧ snapshot = R.snapshot n revs := by
  obtain ⟨before, hbefore, hshown | ⟨list, hlist, rfl⟩⟩ := h
  · obtain ⟨n, revs, hshows, rfl⟩ := authoritySnapshot_eq_ok.mp hshown
    exact ⟨before, n, revs, hbefore, hshows, rfl⟩
  · obtain ⟨earlier, n, revs, certificates, hearlier, hshows, -, rfl⟩ := published_at before hlist
    exact ⟨earlier, n, revs, hearlier.trans hbefore, hshows, rfl⟩

theorem Later.shows_le {n m : Nat} {revs revs' : List DeviceRevocation} (h : Later s t)
    (hs : Shows R s n revs) (ht : Shows R t m revs') :
    n ≤ m ∧ (∀ r ∈ revs, r ∈ revs') ∧ (n = m → R.snapshot n revs = R.snapshot m revs') := by
  obtain ⟨k, hk, hkm, hlog⟩ := h.revision m ht.next
  obtain rfl : n = k := Except.ok.inj (hs.next.symm.trans hk)
  refine ⟨hkm, fun r hr => ?_, fun hnm => ?_⟩
  · have hentry := h.kept (some r) (by rw [hs.entries]; exact List.mem_map_of_mem hr)
    rw [ht.entries] at hentry
    obtain ⟨r', hr', heq⟩ := List.mem_map.mp hentry
    cases heq
    exact hr'
  · obtain ⟨rfl, rfl⟩ := ht.unique (hs.of_log (hlog hnm))
    rfl

theorem issuedSnapshot_agree {a b : AccountAuthoritySnapshot}
    (ha : IssuedSnapshot R calls a) (hb : IssuedSnapshot R calls b) :
    (a.revision = b.revision → a = b) ∧ (a.revision ≤ b.revision → ∀ r ∈ a.revocations, r ∈ b.revocations) := by
  obtain ⟨before₁, n, revs, hbefore₁, hshows₁, rfl⟩ := shown_of_issued ha
  obtain ⟨before₂, m, revs', hbefore₂, hshows₂, rfl⟩ := shown_of_issued hb
  simp only [snapshot_revision, mem_snapshot_revocations]
  obtain hlater | hlater := later_or_later (R := R) hbefore₁ hbefore₂
  · obtain ⟨-, hkept, heq⟩ := hlater.shows_le hshows₁ hshows₂
    exact ⟨heq, fun _ => hkept⟩
  · obtain ⟨hle, -, heq⟩ := hlater.shows_le hshows₂ hshows₁
    refine ⟨fun hnm => (heq hnm.symm).symm, fun hmn r hr => ?_⟩
    have hsame := heq (Nat.le_antisymm hle hmn)
    rw [← mem_snapshot_revocations (R := R) (n := m), hsame]
    exact mem_snapshot_revocations.mpr hr

def PublishedList (R : AccountRootIdentity S) (calls : List RootCall) (list : AccountDeviceListSnapshot) : Prop :=
  ∃ before, before <+: calls ∧ ((rootService R).after before).deviceList = some list

variable {l' : AccountDeviceListSnapshot} {x : AuthorityObject} {operation : RootOperation}

theorem publishedList_active (hl : PublishedList R calls l) :
    l.devices ≠ [] ∧ ∀ c ∈ l.devices, ¬ l.content.authoritySnapshot.revokes c.deviceId := by
  obtain ⟨before, -, hl⟩ := hl
  obtain ⟨_, n, revs, certificates, -, -, hpublishable, rfl⟩ := published_at before hl
  refine ⟨fun hnil => hpublishable.nonempty (sortBy_eq_nil.mp hnil), fun c hc => ?_⟩
  rw [deviceList_snapshot, snapshot_revokes]
  exact (hpublishable.listed c (mem_deviceList_devices.mp hc)).active

/-- The object is one that the call has added. -/
def Fresh (R : AccountRootIdentity S) (operation : RootOperation) (s t : RootDirectory) (x : AuthorityObject) : Prop :=
  Held R operation s t x ∧ ∀ r, x = .revocation r → some r ∉ s.revocationEntries

theorem RootOperation.Makes.sequence {n : Nat} {c : DeviceCertificate} (h : operation.Makes R n c) :
    c.authoritySequence = n := by
  cases operation with
  | issueDeviceCertificate device key capabilities | enrollDevice device key capabilities =>
    exact authoritySequence_of_issue h
  | _ => exact h.elim

theorem RootOperation.Makes.unique {n : Nat} {c c' : DeviceCertificate} (h : operation.Makes R n c)
    (h' : operation.Makes R n c') : c = c' := by
  cases operation with
  | issueDeviceCertificate device key capabilities | enrollDevice device key capabilities =>
    exact Except.ok.inj (h.symm.trans h')
  | _ => exact h.elim

theorem Fresh.sequence (h : Fresh R operation s t x) (hchange : Change R s t) :
    s.readNextAuthoritySequence = .ok x.sequence ∧ t.readNextAuthoritySequence = .ok (x.sequence + 1) := by
  cases x with
  | certificate c =>
    obtain ⟨n, hn, hlog, hmakes⟩ := h.1
    obtain rfl := hmakes.sequence
    exact ⟨hn, (next_of_log hlog).trans (next_advanced _)⟩
  | revocation r =>
    obtain hlog | ⟨-, hentries⟩ | ⟨n, hn, hn', added, hadded, hsequence⟩ := hchange.log.cases
    · exact absurd (entries_of_log hlog ▸ h.1) (h.2 r rfl)
    · exact absurd (hentries ▸ h.1) (h.2 r rfl)
    · have hr := ((hadded _).mp h.1).resolve_left (h.2 r rfl)
      obtain rfl := hsequence r hr.symm
      exact ⟨hn, hn'⟩

/-- A call adds one object at most. -/
theorem Fresh.unique {y : AuthorityObject} (hx : Fresh R operation s t x) (hy : Fresh R operation s t y)
    (hchange : Change R s t) : x = y := by
  have hmixed {c : DeviceCertificate} {r : DeviceRevocation} (hc : Fresh R operation s t (.certificate c))
      (hr : Fresh R operation s t (.revocation r)) : False := by
    obtain ⟨n, -, hlog, -⟩ := hc.1
    exact hr.2 r rfl (entries_of_log hlog ▸ hr.1)
  cases x with
  | certificate c =>
    cases y with
    | certificate c' =>
      obtain ⟨n, hn, -, hmakes⟩ := hx.1
      obtain ⟨n', hn', -, hmakes'⟩ := hy.1
      cases hn.symm.trans hn'
      rw [hmakes.unique hmakes']
    | revocation r => exact (hmixed hx hy).elim
  | revocation r =>
    cases y with
    | certificate c => exact (hmixed hy hx).elim
    | revocation r' =>
      obtain hlog | ⟨-, hentries⟩ | ⟨n, -, -, added, hadded, -⟩ := hchange.log.cases
      · exact absurd (entries_of_log hlog ▸ hx.1) (hx.2 r rfl)
      · exact absurd (hentries ▸ hx.1) (hx.2 r rfl)
      · have hr := ((hadded _).mp hx.1).resolve_left (hx.2 r rfl)
        have hr' := ((hadded _).mp hy.1).resolve_left (hy.2 r' rfl)
        rw [Option.some.inj (Option.some.inj (hr.trans hr'.symm))]

end Kilogram.Identity
