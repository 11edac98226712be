import Kilogram.Lib.Except
import Kilogram.State.Files

/-!
# The encrypted state vault

The records of the vault with the manifest, the index and the generation that belong to them.
Encryption and the lookup keys are left out: a record is stored under its path.
-/

namespace Kilogram.State
open Crash Crash.Prog
open Except (failIf okOr)

abbrev Result := Except StateError

def vaultSchemaVersion : Nat := 3
def orderedVaultSchemaVersion : Nat := 4
def indexedVaultSchemaVersion : Nat := 2
def legacyVaultSchemaVersion : Nat := 1
def maxVaultRecordBytes : Nat := 64 * 1024 * 1024
def maxVaultRecords : Nat := 1000000
def maxVaultSnapshotBytes : Nat := 512 * 1024 * 1024

def deviceSecretPath : String := "device-secret.key"
def deviceEncryptionSecretPath : String := "device-encryption-secret.key"

def classifyFirst (first : String) : StateRecordKind :=
  if first = ratchetDirectory then .ratchet
  else if first = "events" then .event
  else if first = "local-messages" then .localProjection
  else if first = "history-rewraps" then .historyRewrap
  else if first = "history-recovery" then .historyRecovery
  else if first = "runtime" then .runtime
  else if first ∈ trustFiles ∨ first ∈ trustDirectories then .trust
  else if first = nextSequenceFile then .sequence
  else .other

def stateRecordKindForPath : Path → StateRecordKind
  | [] => .other
  | first :: _ => classifyFirst first

def classifyRecordKind : Path → StateRecordKind
  | [] => .other
  | first :: _ =>
    if first = deviceSecretPath ∨ first = deviceEncryptionSecretPath then .deviceIdentity
    else classifyFirst first

/-- A path that the vault accepts. -/
def VaultPath (p : Path) : Prop := ValidRelative p ∧ ∀ c ∈ p, '\\' ∉ c.toList
  deriving Decidable

structure ValidRecord (p : Path) (c : Content) : Prop where
  path : VaultPath p
  length : c.length ≤ maxVaultRecordBytes

instance (p : Path) (c : Content) : Decidable (ValidRecord p c) :=
  decidable_of_iff (VaultPath p ∧ c.length ≤ maxVaultRecordBytes) ⟨fun h => ⟨h.1, h.2⟩, fun h => ⟨h.1, h.2⟩⟩

def validateRecord (p : Path) (c : Content) : Result Unit := do
  failIf (¬ VaultPath p) (.unsafeRelativePath p)
  failIf (c.length > maxVaultRecordBytes) (.vaultRecordTooLarge c.length)

namespace Records

def count (r : Records) : Nat := r.entries.card
def plaintextBytes (r : Records) : Nat := (r.entries.map fun x => x.2.length).sum

def Valid (r : Records) : Prop := ∀ x ∈ r.entries, ValidRecord x.1 x.2
  deriving Decidable

/-- Paths in their order, whatever list of them is given. -/
def sorted (paths : Multiset Path) : List Path := Quot.liftOn paths (fun l => l.insertionSort (· ≤ ·)) fun l₁ l₂ h =>
    List.Perm.eq_of_pairwise (fun _ _ _ _ => le_antisymm) (List.pairwise_insertionSort _ l₁)
      (List.pairwise_insertionSort _ l₂)
      ((List.perm_insertionSort _ l₁).trans (h.trans (List.perm_insertionSort _ l₂).symm))

theorem mem_sorted {paths : Multiset Path} {p : Path} : p ∈ sorted paths ↔ p ∈ paths := by
  induction paths using Quot.inductionOn with
  | h l => exact (List.perm_insertionSort _ l).mem_iff

/-- The rows of an index, in the order of their paths. -/
def rows (r : Records) : List (Path × Content) :=
  (sorted r.keys.val).filterMap fun p => (r.lookup p).map fun c => (p, c)

theorem mem_rows {r : Records} {p : Path} {c : Content} : (p, c) ∈ r.rows ↔ r.lookup p = some c := by
  simp only [rows, List.mem_filterMap, Option.map_eq_some_iff, mem_sorted]
  constructor
  · rintro ⟨q, -, c', hc', heq⟩
    cases heq
    exact hc'
  · intro h
    refine ⟨p, ?_, c, h, rfl⟩
    exact Finmap.mem_keys.mpr (Finmap.mem_iff.mpr ⟨c, h⟩)

end Records

def validateRecordTotals (r : Records) : Result Nat := do
  failIf (r.count > maxVaultRecords) (.tooManyVaultRecords r.count)
  failIf (r.plaintextBytes > maxVaultSnapshotBytes) (.vaultSnapshotTooLarge r.plaintextBytes)
  return r.plaintextBytes

def validateManifestIndex (index : Records) : Result Unit := do
  failIf (index.count > maxVaultRecords) (.tooManyVaultRecords index.count)
  failIf (¬ index.Valid) .invalidVaultRecord

def indexForRecords (records : Records) : Result Records := do
  failIf (records.count > maxVaultRecords) (.tooManyVaultRecords records.count)
  failIf (¬ records.Valid) .invalidVaultRecord
  validateManifestIndex records
  return records

def manifestForIndexSchema (index : Records) (schemaVersion : Nat) : Result VaultManifest := do
  validateManifestIndex index
  let plaintextBytes ← validateRecordTotals index
  return ⟨schemaVersion, index.count, plaintextBytes, .indexed (schemaVersion = orderedVaultSchemaVersion) index⟩

def legacyManifestForRecords (records : Records) : Result VaultManifest := do
  let plaintextBytes ← validateRecordTotals records
  return ⟨legacyVaultSchemaVersion, records.count, plaintextBytes, .legacy records⟩

def validateManifest (m : VaultManifest) : Result Unit := do
  failIf (m.schemaVersion ∉ [legacyVaultSchemaVersion, indexedVaultSchemaVersion,
    vaultSchemaVersion, orderedVaultSchemaVersion]) (.unsupportedVaultSchemaVersion m.schemaVersion)
  failIf (m.recordCount > maxVaultRecords) (.tooManyVaultRecords m.recordCount)
  failIf (m.plaintextBytes > maxVaultSnapshotBytes) (.vaultSnapshotTooLarge m.plaintextBytes)

def isIndexedVaultSchema (schemaVersion : Nat) : Bool :=
  schemaVersion ∈ [indexedVaultSchemaVersion, vaultSchemaVersion, orderedVaultSchemaVersion]

structure VaultReport where
  schemaVersion : Nat
  mirrorGeneration : UInt64
  (recordCount plaintextBytes : Nat)
  snapshotId : SnapshotId

def reportFromManifest (m : VaultManifest) (mirrorGeneration : UInt64) : VaultReport :=
  ⟨m.schemaVersion, mirrorGeneration, m.recordCount, m.plaintextBytes, m.snapshotId⟩

namespace Database

def decodeGeneration (manifest : VaultManifest) (g : Stamp) : Result UInt64 := do
  failIf (g.generation = 0) .invalidVaultGeneration
  failIf (g.snapshotId ≠ manifest.snapshotId) .vaultGenerationAuthenticationFailed
  return g.generation

def loadGeneration (db : Database) (manifest : VaultManifest) : Result UInt64 :=
  match db.generation with
  | none => return 1
  | some g => decodeGeneration manifest g

def loadMirrorIntent (db : Database) : Result (Option Stamp) := do
  failIf (db.mirrorIntent.any (·.generation = 0)) .vaultMirrorIntentAuthenticationFailed
  return db.mirrorIntent

def loadPrimaryShadowIntent (db : Database) : Result (Option Stamp) := do
  failIf (db.primaryShadowIntent.any (·.generation = 0))
    .vaultPrimaryShadowIntentAuthenticationFailed
  return db.primaryShadowIntent

def loadRecords (db : Database) : Result Records := do
  failIf (¬ db.records.Valid) .invalidVaultRecord
  return db.records

def verifyWithRecords (db : Database) : Result (VaultReport × Records) := do
  let manifest ← okOr db.manifest .vaultNotMigrated
  validateManifest manifest
  let records ← db.loadRecords
  let observed ← if manifest.schemaVersion = legacyVaultSchemaVersion then
      legacyManifestForRecords records
    else do
      let index ← okOr db.index .vaultManifestIndexMissing
      let observedIndex ← indexForRecords records
      failIf (observedIndex ≠ index) .vaultManifestMismatch
      manifestForIndexSchema index manifest.schemaVersion
  failIf (observed ≠ manifest) .vaultManifestMismatch
  let generation ← db.loadGeneration manifest
  return (reportFromManifest manifest generation, records)

structure Delta where
  upserts : List (Path × Content)
  removals : List Path

/-- The records with the removals taken out and the upserts put in. -/
def Delta.apply (delta : Delta) (records : Records) : Records :=
  delta.upserts.foldl (fun r x => r.insert x.1 x.2) (delta.removals.foldl (fun r p => r.erase p) records)

end Database

end Kilogram.State
