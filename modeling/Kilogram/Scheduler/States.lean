import Kilogram.Store.Event

/-!
# States of the history recovery scheduler

The scheduler of a recovery plan is a chain of signed states.
-/

namespace Kilogram.Scheduler
open Kilogram Kilogram.Store
open Except (ensure ensure_eq_ok ensure_of)

abbrev Result := Except String
/-- An addition in numbers of the given width. -/
def checkedAdd (width a b : Nat) (message : String) : Result Nat := do
  ensure (a + b < 2 ^ width) message
  return a + b

theorem checkedAdd_eq_ok {width a b n : Nat} {message : String} :
    checkedAdd width a b message = .ok n ↔ a + b < 2 ^ width ∧ n = a + b := by
  unfold checkedAdd
  rw [Except.bind_eq_ok]
  constructor
  · rintro ⟨_, h, hn⟩
    exact ⟨ensure_eq_ok.mp h, (Except.ok.inj hn).symm⟩
  · rintro ⟨h, rfl⟩
    exact ⟨(), ensure_of h, rfl⟩

def schedulerStateVersion : UInt8 := 1
def schedulerStateSignatureDomain : Bytes :=
  ("kilogram:history-recovery-scheduler-state-signature:v1\x00".toUTF8).toList
def schedulerStateIdDomain : Bytes := ("kilogram:history-recovery-scheduler-state-id:v1\x00".toUTF8).toList
def schedulerJitterDomain : Bytes := ("kilogram:history-recovery-scheduler-jitter:v1\x00".toUTF8).toList
def maxSchedulerStateBytes : Nat := 4 * 1024
def maxSchedulerStateRecords : Nat := 4096
def maxRecoveryRetryBaseSeconds : Nat := 300
def maxRecoveryRetryMaxSeconds : Nat := 3600
def maxRecoveryAttemptLeaseSeconds : Nat := 2 * 60 * 60

inductive RecoverySchedulerLifecycle where
  | active
  | attempting
  | cancelled
  | completed
  deriving DecidableEq

def RecoverySchedulerLifecycle.isTerminal : RecoverySchedulerLifecycle → Bool
  | .active => false
  | .attempting => false
  | .cancelled => true
  | .completed => true

inductive RecoverySchedulerTransition where
  | initialized
  | attemptStarted
  | attemptFailed
  | attemptProgressed
  | cancelled
  | completed
  deriving DecidableEq

/-- The bounds of the delay between two attempts. -/
structure RecoveryBackoffConfig where
  (baseSeconds maxSeconds : Nat)
  base_le : baseSeconds ≤ maxRecoveryRetryBaseSeconds
  max_le : maxSeconds ≤ maxRecoveryRetryMaxSeconds
  base_le_max : baseSeconds ≤ maxSeconds

inductive RecoverySchedulerReadiness where
  | ready
  | deferred (notBeforeUnixSeconds : Nat)
  | clockRollback (lastObservedUnixSeconds : Nat)
  | attemptLeaseExpired
  | cancelled
  | completed
  deriving DecidableEq

structure RecoverySchedulerStateContent where
  version : UInt8
  (planId recipientDeviceId : Id)
  generation : Nat
  previousStateId : Option Id
  transition : RecoverySchedulerTransition
  lifecycle : RecoverySchedulerLifecycle
  (totalAttempts consecutiveFailures lastObservedUnixSeconds nextAttemptAtUnixSeconds : Nat)
  scheduledDelaySeconds : Nat
  deriving DecidableEq

structure SignedRecoverySchedulerState where
  content : RecoverySchedulerStateContent
  signature : Bytes
  deriving DecidableEq

def RecoverySchedulerLifecycle.variant : RecoverySchedulerLifecycle → Nat
  | .active => 0
  | .attempting => 1
  | .cancelled => 2
  | .completed => 3

def RecoverySchedulerTransition.variant : RecoverySchedulerTransition → Nat
  | .initialized => 0
  | .attemptStarted => 1
  | .attemptFailed => 2
  | .attemptProgressed => 3
  | .cancelled => 4
  | .completed => 5

def encodeOptionalId : Option Id → Bytes
  | none => [0]
  | some id => 1 :: id.bytes

def RecoverySchedulerStateContent.toAllocvec (c : RecoverySchedulerStateContent) : Bytes :=
  [c.version] ++ c.planId.bytes ++ c.recipientDeviceId.bytes ++ Postcard.varint c.generation ++
    encodeOptionalId c.previousStateId ++ Postcard.varint c.transition.variant ++
    Postcard.varint c.lifecycle.variant ++ Postcard.varint c.totalAttempts ++
    Postcard.varint c.consecutiveFailures ++ Postcard.varint c.lastObservedUnixSeconds ++
    Postcard.varint c.nextAttemptAtUnixSeconds ++ Postcard.varint c.scheduledDelaySeconds

def SignedRecoverySchedulerState.toAllocvec (s : SignedRecoverySchedulerState) : Bytes :=
  s.content.toAllocvec ++ Postcard.bytes s.signature

def signingBytes (c : RecoverySchedulerStateContent) : Bytes := schedulerStateSignatureDomain ++ c.toAllocvec

/-- The signature scheme of the devices and the hash. -/
structure Primitives where
  verify : Id → Bytes → Bytes → Bool
  digest : Bytes → Id

structure DeviceIdentity (P : Primitives) where
  deviceId : Id
  sign : Bytes → Bytes
  length_sign : ∀ message, (sign message).length = 64
  verify_sign : ∀ message, P.verify deviceId message (sign message) = true

def validateContent (c : RecoverySchedulerStateContent) : Result Unit := do
  ensure (c.version = schedulerStateVersion) "unsupported history recovery scheduler state version"
  ensure (c.lastObservedUnixSeconds ≤ c.nextAttemptAtUnixSeconds)
    "history recovery scheduler deadline precedes its observed time"
  ensure (c.nextAttemptAtUnixSeconds - c.lastObservedUnixSeconds = c.scheduledDelaySeconds)
    "history recovery scheduler delay does not match its signed deadline"
  ensure (c.scheduledDelaySeconds ≤ maxRecoveryAttemptLeaseSeconds)
    "history recovery scheduler delay exceeds the supported bound"
  if c.generation = 0 then
    ensure (c.previousStateId = none ∧ c.transition = .initialized ∧ c.lifecycle = .active ∧
        c.totalAttempts = 0 ∧ c.consecutiveFailures = 0 ∧ c.scheduledDelaySeconds = 0)
      "history recovery scheduler generation zero is not a valid initialization"
  else
    ensure (c.previousStateId ≠ none ∧ c.transition ≠ .initialized)
      "history recovery scheduler successor has invalid chain metadata"

/-- The checks of a transition that look at the predecessor. -/
def validateTransition (previous next : RecoverySchedulerStateContent) : Result Unit :=
  match next.transition with
  | .initialized => .error "history recovery scheduler cannot initialize twice"
  | .attemptStarted =>
    ensure (previous.lifecycle = .active ∧ next.lifecycle = .attempting ∧
        next.totalAttempts = saturatingAdd 64 previous.totalAttempts 1 ∧
        next.consecutiveFailures = previous.consecutiveFailures ∧ 0 < next.scheduledDelaySeconds)
      "invalid history recovery scheduler attempt-start transition"
  | .attemptFailed => do
    ensure (previous.lifecycle = .attempting ∧ next.lifecycle = .active ∧
        next.totalAttempts = previous.totalAttempts ∧
        next.consecutiveFailures = saturatingAdd 32 previous.consecutiveFailures 1)
      "invalid history recovery scheduler failure transition"
    ensure (next.scheduledDelaySeconds ≤ maxRecoveryRetryMaxSeconds)
      "history recovery scheduler failure delay exceeds retry maximum"
  | .attemptProgressed => do
    ensure (previous.lifecycle = .attempting ∧ next.lifecycle = .active ∧
        next.totalAttempts = previous.totalAttempts ∧ next.consecutiveFailures = 0)
      "invalid history recovery scheduler progress transition"
    ensure (next.scheduledDelaySeconds ≤ maxRecoveryRetryMaxSeconds)
      "history recovery scheduler progress delay exceeds retry maximum"
  | .cancelled =>
    ensure (next.lifecycle = .cancelled ∧ next.totalAttempts = previous.totalAttempts ∧
        next.consecutiveFailures = previous.consecutiveFailures ∧ next.scheduledDelaySeconds = 0)
      "invalid history recovery scheduler cancellation transition"
  | .completed =>
    ensure (next.lifecycle = .completed ∧ next.totalAttempts = previous.totalAttempts ∧
        next.consecutiveFailures = previous.consecutiveFailures ∧ next.scheduledDelaySeconds = 0)
      "invalid history recovery scheduler completion transition"

namespace SignedRecoverySchedulerState
variable (P : Primitives)

def verify (s : SignedRecoverySchedulerState) : Result Unit := do
  validateContent s.content
  ensure (P.verify s.content.recipientDeviceId (signingBytes s.content) s.signature = true)
    "verify recipient signature on history recovery scheduler state"

def stateId (s : SignedRecoverySchedulerState) : Result Id := do
  s.verify P
  return P.digest (schedulerStateIdDomain ++ s.toAllocvec)

def encode (s : SignedRecoverySchedulerState) : Result Bytes := do
  s.verify P
  ensure (s.toAllocvec.length ≤ maxSchedulerStateBytes)
    "history recovery scheduler state exceeds 4096 bytes"
  return s.toAllocvec

def verifySuccessorOf (s previous : SignedRecoverySchedulerState) : Result Unit := do
  s.verify P
  previous.verify P
  ensure (s.content.planId = previous.content.planId) "history recovery scheduler chain changes plan ID"
  ensure (s.content.recipientDeviceId = previous.content.recipientDeviceId)
    "history recovery scheduler chain changes recipient device"
  ensure (s.content.generation = saturatingAdd 64 previous.content.generation 1)
    "history recovery scheduler chain skips or repeats a generation"
  let previousId ← previous.stateId P
  ensure (s.content.previousStateId = some previousId)
    "history recovery scheduler chain is forked or missing its previous state"
  ensure (previous.content.lastObservedUnixSeconds ≤ s.content.lastObservedUnixSeconds)
    "history recovery scheduler chain regresses observed wall-clock time"
  ensure (previous.content.lifecycle.isTerminal = false)
    "history recovery scheduler terminal state has a successor"
  validateTransition previous.content s.content

variable {P} (identity : DeviceIdentity P)

def sign (content : RecoverySchedulerStateContent) : Result SignedRecoverySchedulerState := do
  validateContent content
  ensure (identity.deviceId = content.recipientDeviceId)
    "history recovery scheduler state signer is not its recipient"
  let state : SignedRecoverySchedulerState := ⟨content, identity.sign (signingBytes content)⟩
  state.verify P
  return state

def signSuccessor (s : SignedRecoverySchedulerState) (transition : RecoverySchedulerTransition)
    (lifecycle : RecoverySchedulerLifecycle) (totalAttempts consecutiveFailures lastObservedUnixSeconds
      nextAttemptAtUnixSeconds scheduledDelaySeconds : Nat) : Result SignedRecoverySchedulerState := do
  s.verify P
  ensure (identity.deviceId = s.content.recipientDeviceId)
    "history recovery scheduler successor signer is not the plan recipient"
  let generation ← checkedAdd 64 s.content.generation 1 "history recovery scheduler generation overflows"
  let previousStateId ← s.stateId P
  let next ← sign identity ⟨schedulerStateVersion, s.content.planId, s.content.recipientDeviceId,
    generation, some previousStateId, transition, lifecycle, totalAttempts, consecutiveFailures,
    lastObservedUnixSeconds, nextAttemptAtUnixSeconds, scheduledDelaySeconds⟩
  next.verifySuccessorOf P s
  return next

def readiness (s : SignedRecoverySchedulerState) (now : Nat) : RecoverySchedulerReadiness :=
  match s.content.lifecycle with
  | .cancelled => .cancelled
  | .completed => .completed
  | .active =>
    if now < s.content.lastObservedUnixSeconds then .clockRollback s.content.lastObservedUnixSeconds
    else if s.content.nextAttemptAtUnixSeconds ≤ now then .ready
    else .deferred s.content.nextAttemptAtUnixSeconds
  | .attempting =>
    if now < s.content.lastObservedUnixSeconds then .clockRollback s.content.lastObservedUnixSeconds
    else if s.content.nextAttemptAtUnixSeconds ≤ now then .attemptLeaseExpired
    else .deferred s.content.nextAttemptAtUnixSeconds

/-- The shift drops the bits that leave the word. -/
def recoveryBackoffDelaySeconds (P : Primitives) (planId : Id) (failureExponent attemptOrdinal : Nat)
    (backoff : RecoveryBackoffConfig) : Nat :=
  if backoff.baseSeconds = 0 then 0
  else
    let shift := min (failureExponent - 1) 63
    let exponential := min (backoff.baseSeconds * 2 ^ shift % 2 ^ 64) backoff.maxSeconds
    let floor := (exponential + 1) / 2
    let span := exponential - floor + 1
    let digest := P.digest (schedulerJitterDomain ++ planId.bytes ++
      (Bytes.ofNat 4 failureExponent).reverse ++ (Bytes.ofNat 8 attemptOrdinal).reverse)
    floor + Bytes.toNat ((Id.bytes digest).take 8).reverse % span

def initializeState (planId : Id) (now : Nat) : Result SignedRecoverySchedulerState :=
  sign identity ⟨schedulerStateVersion, planId, identity.deviceId, 0, none, .initialized, .active, 0, 0, now, now, 0⟩

def startAttempt (s : SignedRecoverySchedulerState) (now attemptLeaseSeconds : Nat) :
    Result SignedRecoverySchedulerState := do
  ensure (s.readiness now = .ready) "history recovery scheduler is not ready to start an attempt"
  ensure (0 < attemptLeaseSeconds) "history recovery attempt lease must be positive"
  let next ← checkedAdd 64 now attemptLeaseSeconds "history recovery attempt lease deadline overflows"
  let attempts ← checkedAdd 64 s.content.totalAttempts 1
    "history recovery total attempt counter overflows"
  s.signSuccessor identity .attemptStarted .attempting attempts s.content.consecutiveFailures now next
    attemptLeaseSeconds

def recordFailure (s : SignedRecoverySchedulerState) (now : Nat) (backoff : RecoveryBackoffConfig) :
    Result SignedRecoverySchedulerState := do
  ensure (s.content.lifecycle = .attempting) "only an in-progress history recovery attempt can fail"
  ensure (s.content.lastObservedUnixSeconds ≤ now)
    "wall clock moved backwards during a history recovery attempt"
  let failures ← checkedAdd 32 s.content.consecutiveFailures 1
    "history recovery consecutive failure counter overflows"
  let delay := recoveryBackoffDelaySeconds P s.content.planId failures s.content.totalAttempts backoff
  let next ← checkedAdd 64 now delay "history recovery retry deadline overflows"
  s.signSuccessor identity .attemptFailed .active s.content.totalAttempts failures now next delay

def recordProgress (s : SignedRecoverySchedulerState) (now : Nat) (backoff : RecoveryBackoffConfig) :
    Result SignedRecoverySchedulerState := do
  ensure (s.content.lifecycle = .attempting)
    "only an in-progress history recovery attempt can record progress"
  ensure (s.content.lastObservedUnixSeconds ≤ now)
    "wall clock moved backwards during a history recovery attempt"
  let delay := recoveryBackoffDelaySeconds P s.content.planId 1 s.content.totalAttempts backoff
  let next ← checkedAdd 64 now delay "history recovery progress deadline overflows"
  s.signSuccessor identity .attemptProgressed .active s.content.totalAttempts 0 now next delay

/-- A last transition, at a time that is not before the observed one. -/
def finish (s : SignedRecoverySchedulerState) (transition : RecoverySchedulerTransition)
    (lifecycle : RecoverySchedulerLifecycle) (now : Nat) : Result SignedRecoverySchedulerState := do
  ensure (s.content.lifecycle.isTerminal = false) "history recovery scheduler is already terminal"
  let observed := max now s.content.lastObservedUnixSeconds
  s.signSuccessor identity transition lifecycle s.content.totalAttempts s.content.consecutiveFailures
    observed observed 0

def cancel (s : SignedRecoverySchedulerState) (now : Nat) : Result SignedRecoverySchedulerState :=
  s.finish identity .cancelled .cancelled now

def complete (s : SignedRecoverySchedulerState) (now : Nat) : Result SignedRecoverySchedulerState :=
  s.finish identity .completed .completed now

end SignedRecoverySchedulerState
end Kilogram.Scheduler
