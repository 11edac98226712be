import Kilogram.State.Transaction

/-!
# Direct writes to the vault

The vault is written before the files: the staged mutations are checked against its index and committed in
one step, with the intents that tell a recovery to bring the files up to it.
-/

namespace Kilogram.State
open Crash Crash.Prog
open Except (failIf okOr)

structure VaultMirrorDelta where
  (upsertedRecords removedRecords unchangedRecords : Nat)

def VaultReport.stamp (r : VaultReport) : Stamp := ⟨r.mirrorGeneration, r.snapshotId⟩

namespace Database

def rejectPrimaryShadowIntent (db : Database) : Result Unit := do
  match ← db.loadPrimaryShadowIntent with
  | some intent => throw (.vaultPrimaryShadowRecoveryRequired intent.generation)
  | none => return

/-- The mirror intent, which has to be based on what the vault holds. -/
def mirrorIntentFor (db : Database) (report : VaultReport) : Result Unit := do
  let intent ← okOr (← db.loadMirrorIntent) .vaultMirrorIntentMissing
  failIf (intent ≠ report.stamp) .vaultMirrorIntentBaseMismatch

def typed (selected : List StateRecordKind) (rows : List (Path × Content)) : List VaultPrimaryRecord :=
  (rows.filter fun x => decide (classifyRecordKind x.1 ∈ selected)).map fun x =>
    ⟨classifyRecordKind x.1, x.1, x.2⟩

def readMutablePrimaryCanary (db : Database) (kinds : List StateRecordKind) : Result VaultMutableRead := do
  failIf (kinds = []) .vaultPrimaryReadSelectionEmpty
  kinds.forM fun kind => failIf (kind ≠ .ratchet ∧ kind ≠ .sequence)
    (.vaultPrimaryReadKindNotAllowed kind)
  db.rejectPrimaryShadowIntent
  let (report, records) ← db.verifyWithRecords
  db.mirrorIntentFor report
  return ⟨kinds.dedup, typed kinds.dedup records.rows⟩

def loadIndexedRecord (db : Database) (p : Path) (c : Content) : Result Unit := do
  let record ← okOr (db.records.lookup p) .vaultManifestMismatch
  validateRecord p record
  failIf (record ≠ c) .vaultManifestMismatch

def loadIndexedRecordsForKind (db : Database) (index : Records) (kind : StateRecordKind) :
    Result (List (Path × Content)) := do
  validateManifestIndex index
  let expected := index.rows.filter fun x => decide (classifyRecordKind x.1 = kind)
  expected.forM fun x => db.loadIndexedRecord x.1 x.2
  return expected

/-- The index of the vault, which has to belong to its manifest. -/
def loadIndex (db : Database) (manifest : VaultManifest) : Result Records := do
  let index ← okOr db.index .vaultManifestIndexMissing
  let observed ← manifestForIndexSchema index manifest.schemaVersion
  failIf (observed ≠ manifest) .vaultManifestMismatch
  return index

def readTrustRecords (db : Database) (manifest : VaultManifest) : Result (VaultReport × List (Path × Content)) := do
  if isIndexedVaultSchema manifest.schemaVersion then
    let index ← db.loadIndex manifest
    let generation ← db.loadGeneration manifest
    let rows ← db.loadIndexedRecordsForKind index .trust
    return (reportFromManifest manifest generation, rows)
  else
    let (report, records) ← db.verifyWithRecords
    return (report, records.rows.filter fun x => decide (classifyRecordKind x.1 = .trust))

def readPrimaryTrust (db : Database) : Result VaultMutableRead := do
  db.rejectPrimaryShadowIntent
  let manifest ← okOr db.manifest .vaultNotMigrated
  validateManifest manifest
  let (report, rows) ← db.readTrustRecords manifest
  let intent ← db.loadMirrorIntent
  failIf (intent.any (· ≠ report.stamp)) .vaultMirrorIntentBaseMismatch
  return ⟨[.trust], rows.map fun x => ⟨.trust, x.1, x.2⟩⟩

end Database

def appendOnlyKinds : List StateRecordKind := [.event, .localProjection, .historyRewrap, .historyRecovery, .runtime]

def directKinds : List StateRecordKind :=
  [.ratchet, .event, .localProjection, .historyRewrap, .historyRecovery, .trust, .sequence, .runtime]

structure Staging where
  staged : Records
  upserts : Contents
  (removals seen : List Path)

namespace Staging

def upsert (active : Records) (s : Staging) (x : StateTransaction.StagedStateMutation) (c : Content) :
    Result Staging := do
  validateRecord x.relativePath c
  failIf (x.kind ∈ appendOnlyKinds ∧ (s.staged.lookup x.relativePath).any (· ≠ c))
    (.appendOnlyRecordModified x.relativePath)
  return { s with
    staged := s.staged.insert x.relativePath c
    upserts := if active.lookup x.relativePath ≠ some c then s.upserts.insert x.relativePath c
      else s.upserts
    removals := s.removals.erase x.relativePath }

def remove (active : Records) (s : Staging) (p : Path) : Staging :=
  { s with
    staged := s.staged.erase p
    upserts := s.upserts.erase p
    removals := if p ∈ s.staged ∧ p ∈ active then s.removals.insert p else s.removals }

def step (active : Records) (s : Staging) (x : StateTransaction.StagedStateMutation) : Result Staging := do
  failIf (x.kind ∉ directKinds) (.vaultDirectWriteKindNotAllowed x.kind)
  failIf (¬ ValidRelative x.relativePath) (.unsafeRelativePath x.relativePath)
  failIf (x.relativePath ∈ s.seen) (.vaultDirectWriteDuplicatePath x.relativePath)
  let s := { s with seen := x.relativePath :: s.seen }
  failIf (classifyRecordKind x.relativePath ≠ x.kind)
    (.vaultDirectWriteKindMismatch x.relativePath x.kind (classifyRecordKind x.relativePath))
  match x.content with
  | some c => s.upsert active x c
  | none => return s.remove active x.relativePath

def delta (s : Staging) : Database.Delta := ⟨s.upserts.entries.map fun x => (x.1, x.2), s.removals⟩

/-- How many records of the vault stay as they are. -/
def unchanged (active : Records) (s : Staging) : Nat :=
  active.count - ((s.upserts.keys.filter (· ∈ active)).length + s.removals.length)

def report (active : Records) (s : Staging) : VaultMirrorDelta :=
  ⟨s.upserts.entries.length, s.removals.length, s.unchanged active⟩

end Staging

def nextGeneration (generation : UInt64) : Result UInt64 := do
  failIf (generation = UInt64.ofNat (2 ^ 64 - 1)) .vaultGenerationExhausted
  return generation + 1

end Kilogram.State
