import Kilogram.Lib.Chain
import Kilogram.Lib.Crash
import Kilogram.Lib.Service
import Kilogram.Scheduler.States

/-!
# The files of the history recovery scheduler

Every state of a plan has a file of its own in the directory of the plan, named after its generation and
its identifier. The power may go before any step of the writer.
-/

namespace Kilogram.Scheduler
open Crash Crash.Prog
open Except (ensure)

/-- The name of a record spells a generation and an identifier. -/
structure RecordFile where
  generation : Nat
  stateId : Id
  state : SignedRecoverySchedulerState

/-- Temporary files have no extension and are not read; they are empty or written. -/
structure PlanDirectory where
  records : List RecordFile
  temporaries : List (Option SignedRecoverySchedulerState)

/-- The directories of the plans. -/
abbrev StateDirectory := Id → Option PlanDirectory

/-- A directory lists its files in an order of its own. -/
structure Listing where
  order : List RecordFile → List RecordFile
  perm : ∀ files, (order files).Perm files

section
variable (P : Primitives)

def schedulerStateFileName (s : SignedRecoverySchedulerState) : Result (Nat × Id) := do
  let id ← s.stateId P
  return (s.content.generation, id)

def readRecord (planId recipient : Id) (file : RecordFile) : Result SignedRecoverySchedulerState := do
  let bytes := file.state.toAllocvec
  ensure (bytes.length ≤ maxSchedulerStateBytes) "history recovery scheduler record exceeds 4096 bytes"
  ensure (bytes ≠ [] ∧ bytes.length ≤ maxSchedulerStateBytes)
    "history recovery scheduler state must contain 1..=4096 bytes"
  file.state.verify P
  ensure (file.state.content.planId = planId)
    "history recovery scheduler record belongs to a different plan"
  ensure (file.state.content.recipientDeviceId = recipient)
    "history recovery scheduler record belongs to a different recipient"
  let name ← schedulerStateFileName P file.state
  ensure ((file.generation, file.stateId) = name)
    "history recovery scheduler record filename does not match its signed content"
  return file.state

/-- The records that were read so far come first. -/
def readRecords (planId recipient : Id) : List RecordFile → List SignedRecoverySchedulerState →
    Result (List SignedRecoverySchedulerState)
  | [], records => return records
  | file :: files, records => do
    ensure (records.length < maxSchedulerStateRecords)
      "history recovery scheduler state exceeds 4096 records"
    let state ← readRecord P planId recipient file
    readRecords planId recipient files (records ++ [state])

def sortByGeneration (records : List SignedRecoverySchedulerState) : List SignedRecoverySchedulerState :=
  records.insertionSort fun a b => a.content.generation ≤ b.content.generation

def loadRecoverySchedulerState (listing : Listing) (t : StateDirectory) (planId recipient : Id) :
    Result (Option SignedRecoverySchedulerState) :=
  match t planId with
  | none => return none
  | some directory => do
    let records ← readRecords P planId recipient (listing.order directory.records) []
    let records := sortByGeneration records
    match records.head? with
    | none => return none
    | some first =>
      ensure (first.content.generation = 0)
        "history recovery scheduler chain is missing its initial state"
      Chain.forPairs (fun previous next => next.verifySuccessorOf P previous) records
      return records.getLast?

def StateDirectory.modify (planId : Id) (f : PlanDirectory → PlanDirectory) (t : StateDirectory) : StateDirectory :=
  Function.update t planId (some (f ((t planId).getD ⟨[], []⟩)))

def StateDirectory.records (t : StateDirectory) (planId : Id) : List RecordFile :=
  ((t planId).map PlanDirectory.records).getD []

namespace PlanDirectory

def newTemporary (d : PlanDirectory) : PlanDirectory := { d with temporaries := none :: d.temporaries }

def writeTemporary (state : SignedRecoverySchedulerState) (d : PlanDirectory) : PlanDirectory :=
  { d with temporaries := some state :: d.temporaries.tail }

def dropTemporary (d : PlanDirectory) : PlanDirectory := { d with temporaries := d.temporaries.tail }

def rename (file : RecordFile) (d : PlanDirectory) : PlanDirectory := ⟨d.records ++ [file], d.temporaries.tail⟩

end PlanDirectory

/-- A successor of what is stored, or a first state. -/
def verifyNext (existing : Option SignedRecoverySchedulerState) (state : SignedRecoverySchedulerState) :
    Result Unit :=
  match existing with
  | some previous => state.verifySuccessorOf P previous
  | none =>
    ensure (state.content.generation = 0 ∧ state.content.transition = .initialized)
      "the first persisted recovery scheduler state must initialize generation zero"

def StateDirectory.file (t : StateDirectory) (planId : Id) (name : Nat × Id) : Option RecordFile :=
  (t.records planId).find? fun file => (file.generation, file.stateId) = name

/-- A file of the same name is left as it is; if it holds the same state, all is well. -/
def persistNoclobber (state : SignedRecoverySchedulerState) (name : Nat × Id) :
    Prog Listing StateDirectory String Unit := do
  let planId := state.content.planId
  let t ← disk
  match t.file planId name with
  | none => act (StateDirectory.modify planId (PlanDirectory.rename ⟨name.1, name.2, state⟩))
  | some file => do
    act (StateDirectory.modify planId PlanDirectory.dropTemporary)
    lift (ensure (file.state.toAllocvec = state.toAllocvec)
      "existing history recovery scheduler record differs from the signed transition")

def persistRecoverySchedulerState (state : SignedRecoverySchedulerState) :
    Prog Listing StateDirectory String (Nat × Id) := do
  let planId := state.content.planId
  lift (state.verify P)
  let listing ← environment
  let t ← disk
  let existing ← lift (loadRecoverySchedulerState P listing t planId state.content.recipientDeviceId)
  lift (verifyNext P existing state)
  act (StateDirectory.modify planId id)
  let name ← lift (schedulerStateFileName P state)
  let _ ← lift (state.encode P)
  act (StateDirectory.modify planId PlanDirectory.newTemporary)
  act (StateDirectory.modify planId (PlanDirectory.writeTemporary state))
  persistNoclobber state name
  return name

/-- A state to be stored, and how far the writer comes. -/
structure Storing where
  state : SignedRecoverySchedulerState
  listing : Listing
  power : Option Nat

def service : Service StateDirectory Storing (Except (Stop String) (Nat × Id)) where
  start := fun _ => none
  serve call t :=
    let (answer, machine) := persistRecoverySchedulerState P call.state call.listing ⟨t, call.power⟩
    (answer, machine.disk)

def StateDirectory.holds (t : StateDirectory) (state : SignedRecoverySchedulerState) : Bool :=
  (t.records state.content.planId).any fun file => file.state = state

/-- The states of a plan that the calls stored, in that order. -/
def storedFrom (planId : Id) : StateDirectory → List Storing → List SignedRecoverySchedulerState
  | _, [] => []
  | t, call :: calls =>
    let t' := ((service P).serve call t).2
    if call.state.content.planId = planId ∧ t.holds call.state = false ∧ t'.holds call.state = true then
      call.state :: storedFrom planId t' calls
    else storedFrom planId t' calls

def stored (planId : Id) (calls : List Storing) : List SignedRecoverySchedulerState :=
  storedFrom P planId (service P).start calls

end

/-- The attempts of a chain of states that were started and not ended. -/
def openAttempts (states : List SignedRecoverySchedulerState) : Int := states.foldl (fun n s =>
    match s.content.transition with
    | .initialized => n
    | .attemptStarted => n + 1
    | .attemptFailed => n - 1
    | .attemptProgressed => n - 1
    | .cancelled => 0
    | .completed => 0) 0

end Kilogram.Scheduler
