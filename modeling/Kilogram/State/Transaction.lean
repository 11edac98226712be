import Kilogram.State.Ordered

/-!
# Local state transactions

A transaction keeps what it needs for a rollback in the active journal: a manifest, backups and markers.
-/

namespace Kilogram.State
open Crash Crash.Prog
open Except (failIf)

def manifestVersion : UInt8 := 1

def backupDirectory : Path := activeDirectory ++ ["backup"]
def primaryBackupDirectory : Path := activeDirectory ++ ["primary-backup"]
def compactionBackupDirectory : Path := activeDirectory ++ ["append-only-compaction-backup"]

def ratchetBackup : Path := backupDirectory ++ [ratchetDirectory]
def sequenceBackup : Path := backupDirectory ++ [nextSequenceFile]
def ratchetPrimaryBackup : Path := primaryBackupDirectory ++ [ratchetDirectory]
def sequencePrimaryBackup : Path := primaryBackupDirectory ++ [nextSequenceFile]
def trustPrimaryBackup : Path := primaryBackupDirectory ++ ["trust"]

def decodeManifest : Content → Result TransactionManifest
  | .manifest m => return m
  | .data _ => throw (.invalidManifest manifestFile)

def readManifest : M TransactionManifest := do
  let raw ← readFile manifestFile
  let m ← lift (decodeManifest raw)
  failIf (m.version ≠ manifestVersion) (.unsupportedManifestVersion m.version)
  return m

def prepareSnapshot : M TransactionManifest := do
  let ratchetExisted ← pathExists [ratchetDirectory]
  when ratchetExisted (copyTree [ratchetDirectory] ratchetBackup)
  let nextSequenceExisted ← pathExists [nextSequenceFile]
  when nextSequenceExisted (copyFile [nextSequenceFile] sequenceBackup)
  let found ← appendOnlyRoots.mapM fun name => collectRelativeFiles [] [name]
  return ⟨manifestVersion, ratchetExisted, nextSequenceExisted, found.flatten, [], none, none, false⟩

def clearTrustContents : M Unit := do
  trustFiles.forM fun name => removeFileIfPresent [name]
  trustDirectories.forM fun name => removeTreeIfPresent [name]

def collectTrustContents : M Contents := do
  let found ← trustFiles.mapM fun name => do return (name, ← readOptionalFile [name])
  let trees ← trustDirectories.mapM fun name => collectTreeContents [name] []
  let records := found.foldl (fun (records : Contents) x => x.2.elim records fun c => records.insert [x.1] c) ∅
  return trees.foldl (fun records tree => tree.entries.foldl (fun r x => r.insert x.1 x.2) records) records

def ratchetSource (m : TransactionManifest) : Bool × Path :=
  match m.ratchetPrimaryExisted with
  | some existed => (existed, ratchetPrimaryBackup)
  | none => (m.ratchetExisted, ratchetBackup)

def sequenceSource (m : TransactionManifest) : Bool × Path :=
  match m.nextSequencePrimaryExisted with
  | some existed => (existed, sequencePrimaryBackup)
  | none => (m.nextSequenceExisted, sequenceBackup)

def checkAppendOnly (p : Path) : M Unit := do
  validateRelative p
  failIf (¬ ∃ name ∈ appendOnlyRoots, [name] <+: p) (.unsafeRelativePath p)

def checkCompacted (m : TransactionManifest) (p : Path) : M Unit := do
  validateRelative p
  failIf (stateRecordKindForPath p ≠ .runtime ∨ p ∉ m.appendOnlyFiles) (.appendOnlyCompactionNotAllowed p)
  let backup := compactionBackupDirectory ++ p
  let fs ← files
  failIf (¬ fs.Exists backup) (.io backup)
  failIf (fs.file backup = none) (.invalidBackup backup)

def checkRatchetBackup (dir : Path) : M Unit := do
  failIf (¬ (← files).Exists dir) (.invalidBackup dir)
  let _ ← collectRelativeFiles activeDirectory dir

def checkSequenceBackup (p : Path) : M Unit := do
  let fs ← files
  failIf (¬ fs.Exists p ∨ fs.file p = none) (.invalidBackup p)

/-- Before anything is changed, the manifest and the backups it names are checked. -/
def checkRollback (m : TransactionManifest) : M Unit := do
  m.appendOnlyFiles.forM checkAppendOnly
  m.compactedAppendOnlyFiles.forM (checkCompacted m)
  when (ratchetSource m).1 (checkRatchetBackup (ratchetSource m).2)
  when (sequenceSource m).1 (checkSequenceBackup (sequenceSource m).2)

def restoreRatchet (m : TransactionManifest) : M Unit := do
  removeTreeIfPresent [ratchetDirectory]
  when (ratchetSource m).1 (copyTree (ratchetSource m).2 [ratchetDirectory])

def restoreSequence (m : TransactionManifest) : M Unit := do
  removeFileIfPresent [nextSequenceFile]
  when (sequenceSource m).1 (copyFile (sequenceSource m).2 [nextSequenceFile])

def restoreTrust : M Unit := do
  failIf (¬ (← files).Exists trustPrimaryBackup) (.invalidBackup trustPrimaryBackup)
  clearTrustContents
  let backup ← collectTreeContents trustPrimaryBackup trustPrimaryBackup
  backup.entries.forM fun x => do
    failIf (stateRecordKindForPath x.1 ≠ .trust) (.trustWorkspaceKindMismatch x.1)
    writeStagedFile x.1 x.2

def restoreCompacted (p : Path) : M Unit := do
  validateRelative p
  removeFileIfPresent p
  copyFile (compactionBackupDirectory ++ p) p

/-- Bring the files back to what the journal has kept. -/
def restoreBackups (m : TransactionManifest) : M Unit := do
  restoreRatchet m
  restoreSequence m
  when m.trustPrimaryPrepared restoreTrust
  appendOnlyRoots.forM fun name => removeNewFiles [name] m.appendOnlyFiles
  m.compactedAppendOnlyFiles.forM restoreCompacted

def rollbackActive : M Unit := do
  let m ← readManifest
  checkRollback m
  restoreBackups m
  writeMarker rolledBackMarker
  removeTreeIfPresent activeDirectory

/-- What taking the lock does before anything else. -/
def recover : M Unit := do
  let d ← disk
  if d.files.Exists activeDirectory then
    if ¬ d.files.Exists preparedMarker ∨ d.files.Exists committedMarker ∨ d.files.Exists rolledBackMarker then
      removeTreeIfPresent activeDirectory
    else
      let raw ← readFile manifestFile
      failIf (HasOrderedFence d.files ∧ raw.length > 1024) (.orderedState "ordered journal manifest cap")
      failIf (HasIndexedAnchor d) .orderedWriterRequired
      let m ← lift (decodeManifest raw)
      if m.version = 2 then
        recoverOrderedJournal
        removeTreeIfPresent activeDirectory
      else rollbackActive

structure StateTransaction where
  ratchetPrimaryBaseline : Option Contents
  sequencePrimaryPrepared : Bool
  trustPrimaryBaseline : Option Contents
  (appendOnlyWrites appendOnlyRemovals : List Path)

structure VaultPrimaryRecord where
  kind : StateRecordKind
  relativePath : Path
  content : Content

structure VaultMutableRead where
  selectedKinds : List StateRecordKind
  records : List VaultPrimaryRecord

/-- The baseline of a workspace: every record is of the kind, and no path comes twice. -/
def readBaseline (kind : StateRecordKind) (mismatch : Path → StateError) :
    List VaultPrimaryRecord → Contents → Result Contents
  | [], baseline => return baseline
  | r :: l, baseline => do
    failIf (r.kind ≠ kind) (mismatch r.relativePath)
    failIf (¬ ValidRelative r.relativePath) (.unsafeRelativePath r.relativePath)
    failIf (stateRecordKindForPath r.relativePath ≠ kind) (mismatch r.relativePath)
    failIf (r.relativePath ∈ baseline) (.vaultDirectWriteDuplicatePath r.relativePath)
    readBaseline kind mismatch l (baseline.insert r.relativePath r.content)

def onlyKind (read : VaultMutableRead) (kind : StateRecordKind) : Prop :=
  read.selectedKinds.length = 1 ∧ kind ∈ read.selectedKinds
  deriving Decidable

def mutableReadSelection : Path := ["mutable read selection"]

namespace StateTransaction

def «begin» : M StateTransaction := do
  let fs ← files
  failIf (HasOrderedFence fs) .orderedWriterRequired
  failIf (fs.Exists activeDirectory) (.transactionAlreadyActive activeDirectory)
  createDirAll backupDirectory
  let m ← prepareSnapshot
  writeManifest m
  writeMarker preparedMarker
  return ⟨none, false, none, [], []⟩

def commit : M Unit := do
  writeMarker committedMarker
  removeTreeIfPresent activeDirectory

def rollback : M Unit := rollbackActive

def prepareRatchetWorkspace (t : StateTransaction) (read : VaultMutableRead) : M StateTransaction := do
  failIf t.ratchetPrimaryBaseline.isSome .ratchetWorkspaceAlreadyPrepared
  failIf (¬ onlyKind read .ratchet) (.ratchetWorkspaceKindMismatch mutableReadSelection)
  let baseline ← lift (readBaseline .ratchet .ratchetWorkspaceKindMismatch read.records ∅)
  let m ← readManifest
  removeTreeIfPresent ratchetPrimaryBackup
  baseline.entries.forM fun x => writeStagedFile (ratchetPrimaryBackup ++ x.1.drop 1) x.2
  writeManifest { m with ratchetPrimaryExisted := some (baseline.entries ≠ []) }
  removeTreeIfPresent [ratchetDirectory]
  baseline.entries.forM fun x => writeStagedFile x.1 x.2
  return { t with ratchetPrimaryBaseline := some baseline }

/-- The one sequence record of the read, if it has one. -/
def sequenceContent : List VaultPrimaryRecord → Result (Option Content)
  | [] => return none
  | [r] => do
    failIf (¬ (r.kind = .sequence ∧ r.relativePath = [nextSequenceFile]))
      (.sequenceWorkspaceKindMismatch r.relativePath)
    return some r.content
  | _ => throw (.sequenceWorkspaceKindMismatch ["multiple sequence records"])

def prepareSequenceWorkspace (t : StateTransaction) (read : VaultMutableRead) : M StateTransaction := do
  failIf t.sequencePrimaryPrepared .sequenceWorkspaceAlreadyPrepared
  failIf (¬ onlyKind read .sequence) (.sequenceWorkspaceKindMismatch mutableReadSelection)
  let content ← lift (sequenceContent read.records)
  let m ← readManifest
  removeFileIfPresent sequencePrimaryBackup
  content.forM fun c => writeStagedFile sequencePrimaryBackup c
  writeManifest { m with nextSequencePrimaryExisted := some content.isSome }
  removeFileIfPresent [nextSequenceFile]
  content.forM fun c => writeStagedFile [nextSequenceFile] c
  return { t with sequencePrimaryPrepared := true }

def prepareTrustWorkspaceFromBaseline (t : StateTransaction) (baseline : Contents) : M StateTransaction := do
  removeTreeIfPresent trustPrimaryBackup
  createDirAll trustPrimaryBackup
  baseline.entries.forM fun x => writeStagedFile (trustPrimaryBackup ++ x.1) x.2
  let m ← readManifest
  writeManifest { m with trustPrimaryPrepared := true }
  clearTrustContents
  baseline.entries.forM fun x => writeStagedFile x.1 x.2
  return { t with trustPrimaryBaseline := some baseline }

def prepareTrustWorkspace (t : StateTransaction) (read : VaultMutableRead) : M StateTransaction := do
  failIf t.trustPrimaryBaseline.isSome .trustWorkspaceAlreadyPrepared
  failIf (¬ onlyKind read .trust) (.trustWorkspaceKindMismatch mutableReadSelection)
  let baseline ← lift (readBaseline .trust .trustWorkspaceKindMismatch read.records ∅)
  t.prepareTrustWorkspaceFromBaseline baseline

def prepareLegacyTrustWorkspace (t : StateTransaction) : M StateTransaction := do
  failIf t.trustPrimaryBaseline.isSome .trustWorkspaceAlreadyPrepared
  let baseline ← collectTrustContents
  t.prepareTrustWorkspaceFromBaseline baseline

def registerAppendOnlyWrite (t : StateTransaction) (p : Path) : M StateTransaction := do
  validateRelative p
  failIf (stateRecordKindForPath p ∉ [.event, .localProjection, .historyRewrap, .historyRecovery, .runtime])
    (.appendOnlyWriteKindNotAllowed p)
  failIf (p ∈ t.appendOnlyRemovals) (.appendOnlyCompactionNotAllowed p)
  return { t with appendOnlyWrites := t.appendOnlyWrites.insert p }

def compactRuntimeRecord (t : StateTransaction) (p : Path) : M StateTransaction := do
  validateRelative p
  failIf (stateRecordKindForPath p ≠ .runtime) (.appendOnlyCompactionNotAllowed p)
  let m ← readManifest
  failIf (p ∉ m.appendOnlyFiles) (.appendOnlyCompactionNotAllowed p)
  if p ∈ t.appendOnlyRemovals then return t
  else
    let fs ← files
    failIf (¬ fs.Exists p) (.io p)
    failIf (fs.file p = none) (.appendOnlyCompactionNotAllowed p)
    copyFile p (compactionBackupDirectory ++ p)
    writeManifest { m with compactedAppendOnlyFiles := m.compactedAppendOnlyFiles.insert p }
    removeFileIfPresent p
    return { t with appendOnlyRemovals := t.appendOnlyRemovals.insert p }

structure StagedStateMutation where
  kind : StateRecordKind
  relativePath : Path
  content : Option Content

end StateTransaction
end Kilogram.State
