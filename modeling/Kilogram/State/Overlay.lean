import Kilogram.State.Atomicity
import Kilogram.State.Staging

/-!
# What a direct write records

A transaction stages what differs from the vault in the workspaces prepared from it, and elsewhere what
differs from the directory at its beginning.
-/

namespace Kilogram.State
open Crash Crash.Prog FileSystem StateTransaction
open Except (ok_iff okOr_eq_ok failIf_of_not)
namespace Database
variable {db : Database} {report : VaultReport} {records : Records} {manifest : VaultManifest}
variable {index : Records}

theorem indexForRecords_eq (h : indexForRecords records = .ok index) : index = records := by
  simp only [indexForRecords, ok_iff] at h
  obtain ⟨_, -, _, -, _, -, rfl⟩ := h
  rfl

/-- The manifest, the index and the generation belong to the records. -/
structure Verifies (db : Database) (m : VaultManifest) (g : UInt64) : Prop where
  manifest : db.manifest = some m
  accepted : validateManifest m = .ok ()
  valid : db.records.Valid
  legacy : m.schemaVersion = legacyVaultSchemaVersion → legacyManifestForRecords db.records = .ok m
  indexed : m.schemaVersion ≠ legacyVaultSchemaVersion → db.index = some db.records ∧
    indexForRecords db.records = .ok db.records ∧ manifestForIndexSchema db.records m.schemaVersion = .ok m
  generation : db.loadGeneration m = .ok g

theorem loadRecords_eq (h : db.loadRecords = .ok records) : db.records.Valid ∧ records = db.records := by
  simp only [loadRecords, ok_iff, not_not] at h
  obtain ⟨_, hvalid, rfl⟩ := h
  exact ⟨hvalid, rfl⟩

theorem verifies_of_verify (h : db.verifyWithRecords = .ok (report, records)) :
    ∃ m g, db.Verifies m g ∧ records = db.records ∧ report = reportFromManifest m g := by
  simp only [verifyWithRecords, ok_iff] at h
  obtain ⟨m, hm, _, haccepted, _, hrecords, h⟩ := h
  obtain ⟨hvalid, rfl⟩ := loadRecords_eq hrecords
  split_ifs at h with hlegacy <;> simp only [ok_iff, not_not, Prod.mk.injEq] at h
  · obtain ⟨_, hobserved, _, rfl, g, hg, rfl, rfl⟩ := h
    exact ⟨_, g, ⟨hm, haccepted, hvalid, fun _ => hobserved, fun h => absurd hlegacy h, hg⟩, rfl, rfl⟩
  · obtain ⟨_, hindex, _, hobserved, _, rfl, _, hm', _, rfl, g, hg, rfl, rfl⟩ := h
    obtain rfl := indexForRecords_eq hobserved
    exact ⟨_, g, ⟨hm, haccepted, hvalid, fun h => absurd h hlegacy, fun _ => ⟨hindex, hobserved, hm'⟩, hg⟩, rfl, rfl⟩

theorem records_of_verify (h : db.verifyWithRecords = .ok (report, records)) : records = db.records := by
  obtain ⟨_, _, -, hrecords, -⟩ := verifies_of_verify h
  exact hrecords

theorem index_of_verify (h : db.verifyWithRecords = .ok (report, records))
    (hm : db.manifest = some manifest) (hs : manifest.schemaVersion ≠ legacyVaultSchemaVersion) :
    db.index = some db.records := by
  obtain ⟨m, g, hv, -⟩ := verifies_of_verify h
  cases hm.symm.trans hv.manifest
  exact (hv.indexed hs).1

theorem ne_legacy_of_isIndexed (h : isIndexedVaultSchema manifest.schemaVersion = true) :
    manifest.schemaVersion ≠ legacyVaultSchemaVersion := by
  intro heq
  rw [heq] at h
  cases h

theorem loadIndex_eq (h : db.loadIndex manifest = .ok index) : db.index = some index := by
  simp only [loadIndex, ok_iff] at h
  obtain ⟨_, hindex, _, -, _, -, rfl⟩ := h
  exact hindex

/-- The records of one kind, each once with its kind. -/
def Selects (db : Database) (kind : StateRecordKind) (read : VaultMutableRead) : Prop :=
  ∀ r, r ∈ read.records ↔ classifyRecordKind r.relativePath = kind ∧ r.kind = kind ∧
    db.records.lookup r.relativePath = some r.content

theorem selects_of_readMutablePrimaryCanary {kind : StateRecordKind} {read : VaultMutableRead}
    (h : db.readMutablePrimaryCanary [kind] = .ok read) :
    db.Selects kind read := by
  simp only [readMutablePrimaryCanary, ok_iff, Prod.exists] at h
  obtain ⟨_, -, _, -, _, -, _, _, hverify, _, -, rfl⟩ := h
  intro r
  rw [records_of_verify hverify]
  simp only [typed, List.mem_map, List.mem_filter, decide_eq_true_eq]
  constructor
  · rintro ⟨⟨p, c⟩, ⟨hrow, hkind⟩, rfl⟩
    have hkind : classifyRecordKind p = kind := by simpa using hkind
    exact ⟨hkind, hkind, Records.mem_rows.mp hrow⟩
  · rintro ⟨hkind, hkind', hlookup⟩
    refine ⟨(r.relativePath, r.content), ⟨Records.mem_rows.mpr hlookup, by simpa using hkind⟩, ?_⟩
    cases r
    simp only at hkind hkind'
    rw [hkind, hkind']

theorem mem_filter_rows {kind : StateRecordKind} {x : Path × Content} :
    x ∈ index.rows.filter (fun x => decide (classifyRecordKind x.1 = kind)) ↔
      classifyRecordKind x.1 = kind ∧ index.lookup x.1 = some x.2 := by
  rw [List.mem_filter, decide_eq_true_eq, and_comm, ← Records.mem_rows]

theorem readTrustRecords_eq (hv : db.verifyWithRecords = .ok (report, records))
    (hm : db.manifest = some manifest) {report' : VaultReport} {rows : List (Path × Content)}
    (h : db.readTrustRecords manifest = .ok (report', rows)) :
    rows = db.records.rows.filter fun x => decide (classifyRecordKind x.1 = .trust) := by
  unfold readTrustRecords at h
  split_ifs at h with hindexed <;> simp only [ok_iff, Prod.exists, Prod.mk.injEq] at h
  · obtain ⟨_, hindex, _, -, _, hrows, -, rfl⟩ := h
    simp only [loadIndexedRecordsForKind, ok_iff] at hrows
    obtain ⟨_, -, _, -, rfl⟩ := hrows
    have hsame := index_of_verify hv hm (ne_legacy_of_isIndexed hindexed)
    cases hsame.symm.trans (loadIndex_eq hindex)
    rfl
  · obtain ⟨_, _, hverify, -, rfl⟩ := h
    rw [records_of_verify hverify]

theorem selects_of_readPrimaryTrust (hv : db.verifyWithRecords = .ok (report, records))
    {read : VaultMutableRead} (h : db.readPrimaryTrust = .ok read) : db.Selects .trust read := by
  simp only [readPrimaryTrust, ok_iff, Prod.exists] at h
  obtain ⟨_, -, _, hm, _, -, _, _, hrows, _, -, _, -, rfl⟩ := h
  intro r
  rw [readTrustRecords_eq hv hm hrows]
  simp only [List.mem_map, mem_filter_rows]
  constructor
  · rintro ⟨x, ⟨hkind, hlookup⟩, rfl⟩
    exact ⟨hkind, rfl, hlookup⟩
  · rintro ⟨hkind, hkind', hlookup⟩
    refine ⟨(r.relativePath, r.content), ⟨hkind, hlookup⟩, ?_⟩
    cases r
    rw [← hkind']

end Database

variable {mismatch : Path → StateError} {baseline : Contents} {p : Path}

theorem lookup_readBaseline {kind : StateRecordKind} {l : List VaultPrimaryRecord} {start : Contents}
    (h : readBaseline kind mismatch l start = .ok baseline) :
    (∀ p c, start.lookup p = some c → baseline.lookup p = some c) ∧
      ∀ r ∈ l, baseline.lookup r.relativePath = some r.content := by
  induction l generalizing start with
  | nil =>
    cases h
    exact ⟨fun _ _ h => h, fun r hr => absurd hr List.not_mem_nil⟩
  | cons r l ih =>
    simp only [readBaseline, ok_iff] at h
    obtain ⟨_, -, _, -, _, -, _, hnew, h⟩ := h
    obtain ⟨hstart, hl⟩ := ih h
    refine ⟨fun p c hp => hstart p c ?_, fun r' hr' => ?_⟩
    · have hne : p ≠ r.relativePath := by
        rintro rfl
        exact hnew (mem_of_lookup hp)
      rw [AList.lookup_insert_ne hne]
      exact hp
    · rcases List.mem_cons.mp hr' with rfl | hr'
      · exact hstart _ _ (AList.lookup_insert _)
      · exact hl r' hr'

/-- At the paths of its kind the baseline is what the vault holds. -/
theorem Database.Selects.lookup_baseline {db : Database} {kind : StateRecordKind} {read : VaultMutableRead} (hread : db.Selects kind read)
    (h : readBaseline kind mismatch read.records ∅ = .ok baseline)
    (hp : classifyRecordKind p = kind) : baseline.lookup p = db.records.lookup p := by
  cases hlookup : db.records.lookup p with
  | some c => exact (lookup_readBaseline h).2 ⟨kind, p, c⟩ ((hread _).mpr ⟨hp, rfl, hlookup⟩)
  | none =>
    by_contra hne
    obtain ⟨c, hc⟩ := Option.ne_none_iff_exists'.mp hne
    rcases readBaseline_lookup h hc with hempty | ⟨-, -, r, hr, rfl, rfl⟩
    · cases hempty
    · rw [((hread r).mp hr).2.2] at hlookup
      cases hlookup

/-- The operation prepares its workspace from what the vault holds. -/
def Op.FromVault (db : Database) : Op → Prop
  | .prepareRatchetWorkspace read => db.readMutablePrimaryCanary [.ratchet] = .ok read
  | .prepareSequenceWorkspace read => db.readMutablePrimaryCanary [.sequence] = .ok read
  | .prepareTrustWorkspace read => db.readPrimaryTrust = .ok read
  | .prepareLegacyTrustWorkspace => False
  | _ => True

/-- A transaction on its way whose workspaces all come from the vault. -/
inductive Direct (sys : System) (db : Database) (d₀ : Disk) : Disk → StateTransaction → Target → Prop
  | begun {d : Disk} {t : StateTransaction} (h : Returns sys StateTransaction.begin d₀ t d) :
      Direct sys db d₀ d t (.of d₀)
  | done {d d' : Disk} {t t' : StateTransaction} {T : Target} {op : Op} (h : Direct sys db d₀ d t T)
      (hop : op.Proper T) (hv : op.FromVault db) (hr : Returns sys (op.run t) d t' d') :
      Direct sys db d₀ d' t' (T.after d.files op)
  | refused {d d' : Disk} {t : StateTransaction} {T : Target} {op : Op} {e : StateError}
      (h : Direct sys db d₀ d t T) (hop : op.Proper T) (hv : op.FromVault db)
      (hr : Faults sys (op.run t) d e d') : Direct sys db d₀ d' t T

section
variable {sys : System} {db : Database} {d d' d₀ : Disk} {t t' : StateTransaction} {T : Target} {op : Op}

theorem Direct.running (h : Direct sys db d₀ d t T) : Running sys d₀ d t T := by
  induction h with
  | begun h => exact .begun h
  | done h hop hv hr ih => exact .done ih hop hr
  | refused h hop hv hr ih => exact .refused ih hop hr

/-- What the transaction takes for the contents of the vault is what the vault holds. -/
structure FromVault (db : Database) (t : StateTransaction) : Prop where
  ratchet : ∀ baseline, t.ratchetPrimaryBaseline = some baseline → RatchetBaseline baseline ∧
    ∀ p, Below [ratchetDirectory] p → baseline.lookup p = db.records.lookup p
  trust : ∀ baseline, t.trustPrimaryBaseline = some baseline → TrustBaseline baseline ∧
    ∀ p, TrustPath p → baseline.lookup p = db.records.lookup p

variable {fs : FileSystem} {l : List StagedStateMutation} {s : Staging} {g' : UInt64}

theorem FromVault.step {verified : VaultReport × Records} (hverify : db.verifyWithRecords = .ok verified)
    (h : FromVault db t) (hop : op.Proper T) (hv : op.FromVault db)
    (hy : op.Yields fs t t') : FromVault db t' := by
  cases op with
  | edit p n => exact hy ▸ h
  | prepareRatchetWorkspace read =>
    obtain ⟨baseline, hb, rfl⟩ := hy
    refine ⟨?_, h.trust⟩
    rintro _ ⟨⟩
    exact ⟨ratchetBaseline_of_read hop hb, fun p hp =>
      (Database.selects_of_readMutablePrimaryCanary hv).lookup_baseline hb (classify_of_ratchet hp)⟩
  | prepareSequenceWorkspace read =>
    cases hy
    exact ⟨h.ratchet, h.trust⟩
  | prepareTrustWorkspace read =>
    obtain ⟨baseline, hb, rfl⟩ := hy
    refine ⟨h.ratchet, ?_⟩
    rintro _ ⟨⟩
    refine ⟨trustBaseline_of_read hop hb, fun p hp => ?_⟩
    exact (Database.selects_of_readPrimaryTrust hverify hv).lookup_baseline hb (classify_of_trustPath hp)
  | prepareLegacyTrustWorkspace => exact hv.elim
  | registerAppendOnlyWrite p =>
    cases hy
    exact ⟨h.ratchet, h.trust⟩
  | compactRuntimeRecord p =>
    rcases hy with rfl | rfl
    · exact h
    · exact ⟨h.ratchet, h.trust⟩

/-- Only the preparation of their workspace moves the ratchet files the transaction goes back to. -/
theorem Op.Yields.ratchet (h : op.Yields fs t t') (hnone : t'.ratchetPrimaryBaseline = none) :
    t.ratchetPrimaryBaseline = none ∧ (T.after fs op).ratchet = T.ratchet := by
  cases op with
  | prepareRatchetWorkspace read =>
    obtain ⟨baseline, -, rfl⟩ := h
    cases hnone
  | prepareTrustWorkspace read =>
    obtain ⟨baseline, hb, rfl⟩ := h
    simp only [Target.after, hb]
    exact ⟨hnone, rfl⟩
  | prepareSequenceWorkspace read =>
    cases h
    refine ⟨hnone, ?_⟩
    simp only [Target.after]
    cases (sequenceContent read.records).toOption <;> rfl
  | prepareLegacyTrustWorkspace =>
    obtain ⟨_, -, rfl⟩ := h
    exact ⟨hnone, rfl⟩
  | edit p n | registerAppendOnlyWrite p =>
    cases h
    exact ⟨hnone, rfl⟩
  | compactRuntimeRecord p =>
    rcases h with rfl | rfl
    · exact ⟨hnone, rfl⟩
    · exact ⟨hnone, rfl⟩

end

section
variable {sys : System} {db : Database} {d d' d₀ : Disk} {t t' : StateTransaction} {T : Target}
  {ops : List Op}

end

end Kilogram.State
