import Kilogram.State.Vault

/-!
# The files of an ordered profile

The records of an OD1 profile have caps by their paths, and their totals are reserved in advance.
-/

namespace Kilogram.State
open Crash Crash.Prog
open Except (failIf okOr)

def manifestFile : Path := activeDirectory ++ ["manifest.json"]
def preparedMarker : Path := activeDirectory ++ ["prepared"]
def committedMarker : Path := activeDirectory ++ ["committed"]
def rolledBackMarker : Path := activeDirectory ++ ["rolled-back"]

def writeManifest (m : TransactionManifest) : M Unit := do
  let temporary ← newTemporary activeDirectory (.manifest m)
  persist temporary manifestFile (.manifest m)

def asciiBytes (s : String) : Bytes := s.toList.map fun c => UInt8.ofNat c.toNat
def orderedAccountFence : Content := .data (asciiBytes "kilogram:ordered-dialog:account:v1\n")
def accountPickle : Path := [ratchetDirectory, "account.pickle"]
def pickleSecret : Path := [ratchetDirectory, "pickle-secret.key"]

def HasOrderedFence (fs : FileSystem) : Prop := fs.file accountPickle = some orderedAccountFence
  deriving Decidable

def HasIndexedAnchor (d : Disk) : Prop := HasOrderedFence d.files ∧ d.database.any (·.anchor)
  deriving Decidable

def modePath : Path := ["runtime", "od1", "profile-mode"]
def claimPath : Path := ["runtime", "od1", "profile-claim"]
def logicalCap : Nat := 384 * 1024 * 1024
def indexCap : Nat := 8 * 1024 * 1024

def hexComponent (value : String) (n : Nat) : Bool :=
  value.length = n && value.toList.all fun c => c.isDigit || ('a' ≤ c && c ≤ 'f')

def ordinal (value : String) : Bool := value.length = 20 && value.toList.all Char.isDigit

def stripSuffix (value suffix : String) : Option String :=
  if suffix.toList <:+ value.toList then
    some (String.ofList (value.toList.take (value.length - suffix.length)))
  else none

/-- The parts before and after the first dash. -/
def splitDash (value : String) : Option (String × String) :=
  if '-' ∈ value.toList then
    some (String.ofList (value.toList.takeWhile (· ≠ '-')), String.ofList ((value.toList.dropWhile (· ≠ '-')).drop 1))
  else none

def contextCap : Path → Option Nat
  | ["head"] => some (4 * 1024)
  | ["spec"] => some (96 * 1024)
  | ["consent-current"] => some (4 * 1024)
  | ["current-auth"] => some (192 * 1024)
  | ["initial-pair"] => some (192 * 1024)
  | ["peer-locator"] => some (8 * 1024)
  | ["local-locator"] => some (8 * 1024)
  | ["blocked-fork"] => some (68 * 1024)
  | ["controls", id] => if hexComponent id 64 then some (32 * 1024) else none
  | ["ready", r] => if r = "0" ∨ r = "1" then some (4 * 1024) else none
  | ["lane", r, n] => if (r = "0" ∨ r = "1") ∧ ordinal n then some 32 else none
  | ["receipts", r, n] => if (r = "0" ∨ r = "1") ∧ ordinal n then some 1024 else none
  | ["ack-intent", r, n] => if (r = "0" ∨ r = "1") ∧ ordinal n then some 1024 else none
  | ["pending", n] => if ordinal n then some (16 * 1024) else none
  | ["pending-state", n] => if ordinal n then some (2 * 1024) else none
  | ["outbox", n] => if ordinal n then some 1024 else none
  | ["requests", id] => if hexComponent id 32 then some 32 else none
  | ["queue", id] =>
    if (splitDash id).any fun x => ordinal x.1 && hexComponent x.2 32 then some (8 * 1024) else none
  | _ => none

def fixedCap (p : Path) : Option Nat :=
  if p = modePath then some 64
  else if p = claimPath then some 1024
  else if p = [deviceSecretPath] ∨ p = [deviceEncryptionSecretPath] ∨ p = pickleSecret then some 32
  else if p = accountPickle then some 64
  else if p = [nextSequenceFile] then some 32
  else if p = ["account-authority.snapshot"] then some (16 * 1024)
  else if p = ["device-certificate.cert"] then some (8 * 1024)
  else none

def scopedCap : Path → Option Nat
  | ["peer-authority", name] =>
    if (stripSuffix name ".snapshot").any (hexComponent · 64) then some (16 * 1024) else none
  | ["ratchet", "od1-contexts", c, "native"] => if hexComponent c 64 then some (128 * 1024) else none
  | ["events", "od1", c, id] =>
    if hexComponent c 64 ∧ hexComponent id 64 then some (16 * 1024) else none
  | ["local-messages", "od1", c, id] =>
    if hexComponent c 64 ∧ hexComponent id 64 then some (8 * 1024) else none
  | ["runtime", "od1", "auth", id] => if hexComponent id 64 then some (16 * 1024) else none
  | ["runtime", "od1", "authored", device, n] =>
    if hexComponent device 64 ∧ ordinal n then some 32 else none
  | "runtime" :: "od1" :: "contexts" :: c :: tail =>
    if hexComponent c 64 then contextCap tail else none
  | _ => none

def recordCap (p : Path) : Option Nat := (fixedCap p).or (scopedCap p)
def pathLength (p : Path) : Nat := (p.map String.utf8ByteSize).sum + (p.length - 1)

def underContexts (p : Path) : Prop := Below ["runtime", "od1", "contexts"] p
  deriving Decidable

/-- The name is that of a component that is neither the first nor the last. -/
def holdsInside (name : String) (p : Path) : Prop := name ∈ p.tail.dropLast
  deriving Decidable

def removablePath (p : Path) : Prop :=
  underContexts p ∧ (holdsInside "pending" p ∨ holdsInside "pending-state" p ∨ holdsInside "queue" p)
  deriving Decidable

/-- What a record is charged to. -/
inductive Charge
  | auth
  | authored
  | queue (context : String)
  | frame (context : String)
  | frameState (context : String)
  | permanent (context : String)
  | event (context : String)
  | control (context : String)
  | base
  deriving DecidableEq

def chargeTail (c : String) : Path → Charge
  | ["queue", _] => .queue c
  | ["pending", _] => .frame c
  | ["pending-state", _] => .frameState c
  | ["lane", _, _] => .permanent c
  | ["receipts", _, _] => .permanent c
  | ["ack-intent", _, _] => .permanent c
  | ["requests", _] => .permanent c
  | ["outbox", _] => .permanent c
  | _ => .control c

def charge : Path → Charge
  | ["runtime", "od1", "auth", _] => .auth
  | ["runtime", "od1", "authored", _, _] => .authored
  | "runtime" :: "od1" :: "contexts" :: c :: tail => chargeTail c tail
  | ["ratchet", "od1-contexts", c, "native"] => .control c
  | ["events", "od1", c, _] => .event c
  | ["local-messages", "od1", c, _] => .permanent c
  | _ => .base

def Charge.context : Charge → Option String
  | .queue c | .frame c | .frameState c | .permanent c | .event c | .control c => some c
  | .auth | .authored | .base => none

namespace Records

/-- The bytes, or the number, of the records of a charge. -/
def charged (r : Records) (f : Charge → Bool) : Nat :=
  (r.entries.map fun x => if f (charge x.1) then x.2.length else 0).sum

def counted (r : Records) (f : Charge → Bool) : Nat := (r.entries.map fun x => if f (charge x.1) then 1 else 0).sum

def contexts (r : Records) : Finset String := r.keys.biUnion fun p => (charge p).context.elim ∅ fun c => {c}

end Records

/-- The totals of one context. -/
structure ContextReserved (r : Records) (c : String) : Prop where
  controls : r.charged (· = .control c) ≤ 4 * 1024 * 1024
  queueCount : r.counted (· = .queue c) ≤ 128
  queueBytes : r.charged (· = .queue c) ≤ 1024 * 1024
  pending : r.charged (fun x => x = .frame c ∨ x = .frameState c) ≤ 4160 * 1024
  events : r.counted (· = .event c) ≤ 1024
  permanent : r.charged (fun x => x = .permanent c ∨ x = .event c) ≤ 1024 * 64 * 1024

instance (r : Records) (c : String) : Decidable (ContextReserved r c) :=
  decidable_of_iff (r.charged (· = .control c) ≤ 4 * 1024 * 1024 ∧ r.counted (· = .queue c) ≤ 128 ∧
      r.charged (· = .queue c) ≤ 1024 * 1024 ∧
      r.charged (fun x => x = .frame c ∨ x = .frameState c) ≤ 4160 * 1024 ∧
      r.counted (· = .event c) ≤ 1024 ∧
      r.charged (fun x => x = .permanent c ∨ x = .event c) ≤ 1024 * 64 * 1024)
    ⟨fun h => ⟨h.1, h.2.1, h.2.2.1, h.2.2.2.1, h.2.2.2.2.1, h.2.2.2.2.2⟩, fun h => ⟨h.1, h.2, h.3, h.4, h.5, h.6⟩⟩

def isEvent : Charge → Bool
  | .event _ => true
  | _ => false

def isFrame : Charge → Bool
  | .frame _ => true
  | _ => false

def plannedBytes (contexts : Nat) : Nat := 16 * 1024 * 1024 +
    contexts * (128 * 1024 * 1024 + 4 * 1024 * 1024 + 1024 * 1024 + 2 * 4160 * 1024) +
    4 * 1024 * 1024 + 32 * 1024 * 1024

def validateReservations (r : Records) : Result Unit := do
  failIf (r.contexts.card > 2 ∨ r.charged (· = .base) > 16 * 1024 * 1024 ∨ r.counted (· = .authored) > 2048 ∨
      r.charged (· = .auth) > (4 * r.counted isEvent + 2 * r.counted isFrame + 1) * 16 * 1024)
    (.orderedState "StorageBlocked: profile reservation")
  failIf (∃ c ∈ r.contexts, ¬ ContextReserved r c) (.orderedState "StorageBlocked: context reservation")
  failIf (plannedBytes r.contexts.card > logicalCap) (.orderedState "StorageBlocked: prepaid logical capacity")

def varintLength (n : Nat) : Nat := Nat.log2 n / 7 + 1

def entryLength (p : Path) (c : Content) : Nat :=
  varintLength (pathLength p) + pathLength p + varintLength c.length + 32

def indexLength (r : Records) : Nat := 1 + varintLength r.count + (r.entries.map fun x => entryLength x.1 x.2).sum

/-- A record with its version, nonce and tag. -/
def envelopeLength (p : Path) (c : Content) : Nat :=
  1 + 24 + (1 + varintLength (pathLength p) + pathLength p + varintLength c.length + c.length) + 16

inductive OrderedProfile
  | missing
  | other
  | verified (index : Records)

/-- The manifest and the generation are always shorter than their caps. -/
def boundedOrderedProfile (db : Database) : Result OrderedProfile := do
  failIf (db.metaTable = false) .vaultDatabase
  match db.manifest with
  | none => return .missing
  | some manifest => do
    validateManifest manifest
    if manifest.schemaVersion ≠ orderedVaultSchemaVersion then return .other
    else do
      let index ← okOr db.index .vaultManifestIndexMissing
      failIf (indexLength index > indexCap) (.orderedState "index recovery cap")
      validateManifestIndex index
      let expected ← manifestForIndexSchema index orderedVaultSchemaVersion
      failIf (expected ≠ manifest) .vaultManifestMismatch
      match db.generation with
      | none => return .verified index
      | some g => do
        let _ ← Database.decodeGeneration manifest g
        return .verified index

def readPrimary (db : Database) (p : Path) (c : Content) : Result Content := do
  let cap ← okOr (recordCap p) (.orderedState "unknown recovery row")
  failIf (c.length > cap) (.orderedState "recovery row cap")
  let record ← okOr (db.records.lookup p) .vaultManifestMismatch
  failIf (envelopeLength p record > cap + 512) (.orderedState "recovery envelope cap")
  validateRecord p record
  failIf (record ≠ c) .vaultManifestMismatch
  return record

def restoreLegacyRecord (p : Path) (c : Content) : M Unit := do
  lift (validateRecord p c)
  createDirAll p.dropLast
  removeFileIfPresent p
  let temporary ← newTemporary p.dropLast c
  persist temporary p c

/-- The directories below the contexts may not be nested too deep. -/
def removeStaleShadows (dir : Path) (expected : Records) : M Unit := do
  let fs ← files
  if fs.Exists dir then
    let sys ← environment
    failIf (∃ p ∈ sys.listing fs dir, p.length > dir.length + (if (fs.file p).isSome then 9 else 8))
      (.orderedState "shadow directory depth")
    (sys.listing fs dir).forM fun p => do
      if (fs.file p).isSome ∧ removablePath p ∧ p ∉ expected then change (·.erase p)

def restoreVerifiedShadow (db : Database) (index : Records) : M Unit := do
  lift (validateReservations index)
  failIf (db.records.count ≠ index.count) .vaultManifestMismatch
  index.rows.forM fun x => do
    let _ ← lift (readPrimary db x.1 x.2)
  removeStaleShadows ["runtime", "od1", "contexts"] index
  index.rows.forM fun x => do
    let record ← lift (readPrimary db x.1 x.2)
    if classifyRecordKind x.1 ≠ .deviceIdentity then
      validateRelative x.1
      if (← files).file x.1 ≠ some record then restoreLegacyRecord x.1 record

/-- A stop before the vault existed has published nothing. -/
def recoverOrderedJournal : M Unit := do
  match (← disk).database with
  | none => return
  | some db =>
    match ← lift (boundedOrderedProfile db) with
    | .missing => return
    | .other => fail (.orderedState "v2 journal over a legacy profile")
    | .verified index => restoreVerifiedShadow db index

end Kilogram.State
