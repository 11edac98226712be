import Mathlib
import Kilogram.Lib.Bytes
import Kilogram.Lib.Crash

/-!
# The state directory

The files below the state directory, by their paths relative to it, and the steps that the state
layer takes on them. Creating, renaming and removing one file are atomic. Directories are implied by
the entries below them; a directory that was created on its own has an entry too.
-/

namespace Kilogram.State
open Crash Crash.Prog

abbrev Path := List String
instance (p : Path) (paths : List Path) : Decidable (p ∈ paths) := inferInstanceAs (Decidable (p ∈ paths))

def transactionDirectory : String := ".kilogram-transactions"
def activeDirectory : Path := [transactionDirectory, "active"]
def ratchetDirectory : String := "ratchet"
def nextSequenceFile : String := "next-sequence"
def trustFiles : List String := ["account-authority.snapshot", "device-certificate.cert"]
def trustDirectories : List String :=
  ["conversation-memberships", "peer-authority", "recovery-approval", "recovery-policy"]
def appendOnlyRoots : List String := ["events", "local-messages", "history-rewraps", "history-recovery", "runtime"]

structure TransactionManifest where
  version : UInt8
  (ratchetExisted nextSequenceExisted : Bool)
  (appendOnlyFiles compactedAppendOnlyFiles : List Path)
  (ratchetPrimaryExisted nextSequencePrimaryExisted : Option Bool)
  trustPrimaryPrepared : Bool
  deriving DecidableEq

/-! The manifest is stored as JSON; what matters of the text is its length. -/

def jsonChar (c : Char) : String :=
  match c.toNat with
  | 8 => "\\b"
  | 9 => "\\t"
  | 10 => "\\n"
  | 12 => "\\f"
  | 13 => "\\r"
  | 34 => "\\\""
  | 92 => "\\\\"
  | n => if n < 32 then "\\u00" ++ (if n < 16 then "0" else "1") ++
      String.singleton (Nat.digitChar (n % 16)) else String.singleton c

def jsonString (s : String) : String := "\"" ++ String.join (s.toList.map jsonChar) ++ "\""
def jsonList (l : List String) : String := "[" ++ String.intercalate "," l ++ "]"
def jsonPath (p : Path) : String := jsonString (String.intercalate "/" p)
def jsonBool (b : Bool) : String := if b then "true" else "false"

def jsonOption : Option Bool → String
  | none => "null"
  | some b => jsonBool b

def TransactionManifest.json (m : TransactionManifest) : String := "\x7b\"version\":" ++ toString m.version ++
    ",\"ratchet_existed\":" ++ jsonBool m.ratchetExisted ++
    ",\"next_sequence_existed\":" ++ jsonBool m.nextSequenceExisted ++
    ",\"append_only_files\":" ++ jsonList (m.appendOnlyFiles.map jsonPath) ++
    ",\"compacted_append_only_files\":" ++ jsonList (m.compactedAppendOnlyFiles.map jsonPath) ++
    ",\"ratchet_primary_existed\":" ++ jsonOption m.ratchetPrimaryExisted ++
    ",\"next_sequence_primary_existed\":" ++ jsonOption m.nextSequencePrimaryExisted ++
    ",\"trust_primary_prepared\":" ++ jsonBool m.trustPrimaryPrepared ++ "\x7d"

/-- The bytes of a file. Those of a manifest are kept as the value that they encode. -/
inductive Content
  | data (bytes : Bytes)
  | manifest (m : TransactionManifest)
  deriving DecidableEq

def Content.length : Content → Nat
  | .data bytes => bytes.length
  | .manifest m => m.json.utf8ByteSize

inductive Node
  | directory
  | file (content : Content)
  deriving DecidableEq

def Node.content : Node → Option Content
  | .directory => none
  | .file c => some c

abbrev FileSystem := AList fun _ : Path => Node

def Below (dir p : Path) : Prop := dir <+: p ∧ p ≠ dir
  deriving Decidable

namespace FileSystem

def file (fs : FileSystem) (p : Path) : Option Content := (fs.lookup p).bind Node.content

def Exists (fs : FileSystem) (p : Path) : Prop := ∃ q ∈ fs.keys, p <+: q
  deriving Decidable

def IsDirectory (fs : FileSystem) (p : Path) : Prop := fs.file p = none ∧ fs.Exists p
  deriving Decidable

end FileSystem

/-- Contents by path. The digest of a content stands for the content, so this is also an index. -/
abbrev Records := Finmap fun _ : Path => Content

/-- A keyed digest of the records: of their contents, or of the index of a schema. -/
inductive SnapshotId
  | legacy (records : Records)
  | indexed (ordered : Bool) (index : Records)
  deriving DecidableEq

structure VaultManifest where
  (schemaVersion recordCount plaintextBytes : Nat)
  snapshotId : SnapshotId
  deriving DecidableEq

/-- A generation and the snapshot it belongs to. -/
structure Stamp where
  generation : UInt64
  snapshotId : SnapshotId
  deriving DecidableEq

/-- The record table and the metadata table; `anchor` is the root of an indexed dialog. -/
structure Database where
  metaTable : Bool
  records : Records
  manifest : Option VaultManifest
  index : Option Records
  (generation mirrorIntent primaryShadowIntent : Option Stamp)
  anchor : Bool

/-- The files and the database file. -/
structure Disk where
  files : FileSystem
  database : Option Database

inductive StateRecordKind
  | deviceIdentity
  | ratchet
  | event
  | localProjection
  | historyRewrap
  | historyRecovery
  | trust
  | sequence
  | runtime
  | other
  deriving DecidableEq

inductive StateError
  | orderedWriterRequired
  | orderedState (what : String)
  | io (path : Path)
  | unsupportedManifestVersion (version : UInt8)
  | invalidManifest (path : Path)
  | transactionAlreadyActive (path : Path)
  | unsafeRelativePath (path : Path)
  | invalidBackup (path : Path)
  | vaultDatabase
  | vaultDatabaseMissing
  | vaultNotMigrated
  | unsupportedVaultSchemaVersion (version : Nat)
  | vaultManifestIndexMissing
  | invalidVaultRecord
  | vaultRecordTooLarge (length : Nat)
  | tooManyVaultRecords (count : Nat)
  | vaultSnapshotTooLarge (length : Nat)
  | vaultManifestMismatch
  | vaultPrimaryReadKindNotAllowed (kind : StateRecordKind)
  | vaultPrimaryReadSelectionEmpty
  | invalidVaultGeneration
  | vaultGenerationAuthenticationFailed
  | vaultMirrorIntentAuthenticationFailed
  | vaultPrimaryShadowIntentAuthenticationFailed
  | vaultMirrorIntentMissing
  | vaultMirrorIntentBaseMismatch
  | vaultPrimaryShadowRecoveryRequired (generation : UInt64)
  | vaultDirectWriteKindNotAllowed (kind : StateRecordKind)
  | vaultDirectWriteDuplicatePath (path : Path)
  | vaultDirectWriteKindMismatch (path : Path) (declared actual : StateRecordKind)
  | vaultGenerationExhausted
  | appendOnlyRecordRemoved (path : Path)
  | appendOnlyCompactionNotAllowed (path : Path)
  | appendOnlyRecordModified (path : Path)
  | appendOnlyRecordTypeChanged (path : Path)
  | appendOnlyWriteKindNotAllowed (path : Path)
  | ratchetWorkspaceAlreadyPrepared
  | ratchetWorkspaceKindMismatch (what : Path)
  | sequenceWorkspaceAlreadyPrepared
  | sequenceWorkspaceKindMismatch (what : Path)
  | trustWorkspaceAlreadyPrepared
  | trustWorkspaceKindMismatch (what : Path)

/-- What the system chooses: the order in which it lists the entries below a directory, the names of
temporary files and the size of the database file. -/
structure System where
  listing : FileSystem → Path → List Path
  mem_listing : ∀ fs dir p, p ∈ listing fs dir ↔ Below dir p ∧ p ∈ fs
  temporary : FileSystem → Path → String
  temporary_notMem : ∀ fs dir, dir ++ [temporary fs dir] ∉ fs
  temporary_name : ∀ fs dir, (temporary fs dir).toList.take 4 = ['.', 't', 'm', 'p']
  databaseLength : Database → Nat

abbrev M := Prog System Disk StateError
def files : M FileSystem := do return (← disk).files
def change (f : FileSystem → FileSystem) : M Unit := act fun d => { d with files := f d.files }
def pathExists (p : Path) : M Bool := do return decide ((← files).Exists p)

def readFile (p : Path) : M Content := do
  match (← files).file p with
  | some c => return c
  | none => fail (.io p)

def readOptionalFile (p : Path) : M (Option Content) := do
  let fs ← files
  failIf (fs.IsDirectory p) (.io p)
  return fs.file p

def createDirAll (p : Path) : M Unit := do
  if p ≠ [] ∧ (← files).lookup p = none then change (·.insert p .directory)

/-- A path of normal components only. -/
def ValidRelative (p : Path) : Prop := p ≠ [] ∧ ∀ c ∈ p, c ≠ "" ∧ c ≠ "." ∧ c ≠ ".."
  deriving Decidable

def validateRelative (p : Path) : M Unit := failIf (¬ ValidRelative p) (.unsafeRelativePath p)

/-- A new temporary file of this content in the directory. -/
def newTemporary (dir : Path) (c : Content) : M Path := do
  let fs ← files
  let sys ← environment
  let temporary := dir ++ [sys.temporary fs dir]
  change (·.insert temporary (.file c))
  return temporary

def persist (temporary p : Path) (c : Content) : M Unit := change fun fs => (fs.erase temporary).insert p (.file c)

def writeStagedFile (p : Path) (c : Content) : M Unit := do
  failIf (p = []) (.unsafeRelativePath p)
  createDirAll p.dropLast
  let temporary ← newTemporary p.dropLast c
  persist temporary p c

def marker : Content := .data [49, 10]

def writeMarker (p : Path) : M Unit := do
  failIf ((← files).Exists p) (.io p)
  change (·.insert p (.file marker))

def removeTreeIfPresent (dir : Path) : M Unit := do
  let fs ← files
  if fs.Exists dir then
    failIf (fs.file dir ≠ none) (.io dir)
    let sys ← environment
    (sys.listing fs dir).forM fun p => change (·.erase p)
    change (·.erase dir)

def removeFileIfPresent (p : Path) : M Unit := do
  let fs ← files
  if fs.Exists p then
    failIf (fs.file p = none) (.io p)
    change (·.erase p)

def copyFile (source destination : Path) : M Unit := do
  let c ← readFile source
  createDirAll destination.dropLast
  change (·.insert destination (.file c))

def copyTree (source destination : Path) : M Unit := do
  let fs ← files
  failIf (fs.file source ≠ none) (.io source)
  createDirAll destination
  let sys ← environment
  (sys.listing fs source).forM fun p =>
    let target := destination ++ p.drop source.length
    match fs.lookup p with
    | some (.file _) => copyFile p target
    | _ => createDirAll target

/-- The files below a directory, by their paths relative to `base`. -/
def collectRelativeFiles (base dir : Path) : M (List Path) := do
  let fs ← files
  if fs.Exists dir then
    failIf (fs.file dir ≠ none) (.io dir)
    let sys ← environment
    let paths := ((sys.listing fs dir).filter fun p => (fs.file p).isSome).map (·.drop base.length)
    paths.forM validateRelative
    return paths
  else return []

abbrev Contents := AList fun _ : Path => Content

def collectTreeContents (dir base : Path) : M Contents := do
  let fs ← files
  if fs.Exists dir then
    failIf (fs.file dir ≠ none) (.io dir)
    let sys ← environment
    let found := (sys.listing fs dir).filterMap fun p =>
      (fs.file p).map fun c => (⟨p.drop base.length, c⟩ : Sigma fun _ : Path => Content)
    (found.map (·.1)).forM validateRelative
    return found.foldl (fun contents x => contents.insert x.1 x.2) ∅
  else return ∅

/-- Remove the files that are not in `baseline`, and the directories that hold none. -/
def removeNewFiles (dir : Path) (baseline : List Path) : M Unit := do
  let fs ← files
  if fs.Exists dir then
    failIf (fs.file dir ≠ none) (.io dir)
    let sys ← environment
    (sys.listing fs dir).forM fun p => do
      if fs.file p ≠ none then
        validateRelative p
        if p ∉ baseline then change (·.erase p)
    (sys.listing fs dir).forM fun p => do
      let now ← files
      if fs.lookup p = some .directory ∧ ∀ q ∈ now.keys, Below p q → now.file q = none then
        change (·.erase p)

end Kilogram.State
