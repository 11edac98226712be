import Kilogram.History.Protocol2

/-!
# Commits

A commit is a generic list of mutations and credit actions, or an operation of one of the two
history writers. It is checked against the last commit, applied to an overlay of the root, and the
new root is accepted when no settled obligation leaves an unpaid record behind and all budgets hold.

The digest of a request is taken as given: nothing below depends on how it is computed.
-/

namespace Kilogram
open History
open Except (failIf)

inductive Input where
  | generic (mutations : List Mutation) (credits : List CreditAction)
  | history (context : UInt8) (op : Operation)
  | protocol2 (context : UInt8) (op : Operation2)

namespace Vault

def applyMutation (w : Work) : Mutation → Result Work
  | .put k value => do
    failIf k.ns.managed (.bound "credit-managed namespace")
    w.put k value 0 false
  | .retire .. => throw (.bound "retirement requires typed credit transition")

def applyGeneric (w : Work) (mutations : List Mutation) (credits : List CreditAction) : Result Work := do
  let w ← mutations.foldlM applyMutation w
  credits.foldlM Credits.apply w

/-- Mutations of the namespaces that only later layouts have. -/
def foreignMutation : Mutation → Bool
  | .put k _ => k.ns = .migration ∨ k.ns = .legacyBudget
  | .retire k j =>
    k.ns = .migration ∨ k.ns = .legacyBudget ∨ j.ns = .migration ∨ j.ns = .legacyBudget

/-- A context that settled an obligation must have paid for every record it grew. -/
def checkFunded (w : Work) : Result Unit := failIf (w.newCharge.toList.any fun entry => 0 < entry.2 ∧
    w.settled.get entry.1.context = true ∧ entry.1 ∉ w.spent ∧ entry.1.ns.managed = false)
    (.bound "unfunded retention mutation")

section
variable [Primitives]

def guardInput (r : Root) : Input → Result Unit
  | .generic mutations credits => do
    failIf (mutations.any foreignMutation) .runtimeWriterRequired
    historyGuardGeneric r mutations credits
  | .history c op => historyCheckRetry r c op
  | .protocol2 .. => return ()

def applyInput (w : Work) : Input → Result Work
  | .generic mutations credits => applyGeneric w mutations credits
  | .history c op => historyApply w c op
  | .protocol2 c op => history2Apply w c op

def checkRepeat (r : Root) (digest : Id) (input : Input) : Result Unit := do
  failIf (digest ≠ r.requestDigest) .conflict
  match input with
  | .protocol2 c op => history2CheckRetry r c op
  | _ => return ()

/-- The new root, and whether the commit changed nothing. -/
def commitWith (r : Root) (expected : UInt64) (id digest : Id) (input : Input) : Result (Root × Bool) := do
  failIf (id = 0) (.bound "commit ID")
  failIf (r.layout ≠ .component5) .runtimeWriterRequired
  guardInput r input
  if id = r.commitId then do
    checkRepeat r digest input
    return (r, true)
  else do
    failIf (expected ≠ r.generation) .staleGeneration
    let w ← applyInput (Work.new r) input
    checkFunded w
    w.root.check
    if w.changed = false ∧ w.root.ledger = r.ledger then return (r, true)
    else do
      let generation ← Except.okOr (checkedAdd w.root.generation 1) (.bound "generation")
      return ({ w.root with generation, commitId := id, requestDigest := digest }, false)

omit [Primitives] in
def mutationBound : Mutation → Result Nat
  | .put _ value => do
    failIf (value.length > maxValue) (.bound "input value")
    return value.length + 128
  | .retire .. => return 128

def commit (r : Root) (expected : UInt64) (id digest : Id) (mutations : List Mutation)
    (credits : List CreditAction) : Result (Root × Bool) := do
  failIf (r.layout ≠ .component5) .runtimeWriterRequired
  failIf (id = 0 ∨ mutations.length > 4096 ∨ credits.length > 256) (.bound "commit arguments")
  let sizes ← mutations.mapM mutationBound
  let more ← credits.mapM CreditAction.inputBound
  failIf (sizes.sum + more.sum > maxPlan) (.bound "input plan")
  commitWith r expected id digest (.generic mutations credits)

/-- The view a request is digested under must exist. -/
def requestView (r : Root) (c : UInt8) : Option Init → Result Id
  | some init => (Identity.mk r.incarnation init).viewId
  | none => do
    let (_, heads) ← (historyView r c).value
    return heads.view

def commitHistory (r : Root) (c : UInt8) (expected : UInt64) (id digest : Id) (op : Operation) :
    Result (Root × Bool) := do
  failIf (r.layout ≠ .component5) .runtimeWriterRequired
  failIf (c > 1) (.bound "history context")
  op.checkBound
  let _ ← requestView r c (match op with
    | .init i => some i
    | _ => none)
  commitWith r expected id digest (.history c op)

def commitHistoryProtocol2 (r : Root) (c : UInt8) (expected : UInt64) (id digest : Id)
    (op : Operation2) : Result (Root × Bool) := do
  failIf (r.layout ≠ .component5) .runtimeWriterRequired
  failIf (c > 1) (.bound "context")
  op.checkBound
  let _ ← requestView r c (match op with
    | .init i _ => some i
    | _ => none)
  commitWith r expected id digest (.protocol2 c op)

/-- A call of one of the entry points. -/
structure Request where
  expected : UInt64
  (id digest : Id)
  input : Input

def step (r : Root) (q : Request) : Result (Root × Bool) :=
  match q.input with
  | .generic mutations credits => commit r q.expected q.id q.digest mutations credits
  | .history c op => commitHistory r c q.expected q.id q.digest op
  | .protocol2 c op => commitHistoryProtocol2 r c q.expected q.id q.digest op

end

structure CreationClaim where
  (account claim : Id)
  contexts : Two Id

def create (claim : CreationClaim) (incarnation : Id) (logicalQuota : Two Nat) : Result Root := do
  failIf (claim.account = 0 ∨ claim.claim = 0 ∨ claim.contexts.zero = claim.contexts.one)
    (.bound "explicit owner/context claim")
  let ledger0 ← Ledger.new logicalQuota.zero
  let ledger1 ← Ledger.new logicalQuota.one
  let root : Root := ⟨.component5, incarnation, claim.account, claim.claim, claim.contexts, 1, 0, 0,
    ∅, ⟨ledger0, ledger1⟩⟩
  root.check
  return root

/-- A new vault and the commits made on it, one after the other. -/
def history [Primitives] (claim : CreationClaim) (incarnation : Id) (logicalQuota : Two Nat)
    (requests : List Request) : Result Root := do
  let r ← create claim incarnation logicalQuota
  requests.foldlM (fun r q => do
    let (s, _) ← step r q
    return s) r

/-- The roots that commits lead to from a new vault. -/
inductive Reachable [Primitives] : Root → Prop
  | create {claim : CreationClaim} {incarnation : Id} {logicalQuota : Two Nat} {r : Root}
      (h : create claim incarnation logicalQuota = .ok r) : Reachable r
  | step {r s : Root} {q : Request} {same : Bool} (hr : Reachable r)
      (h : step r q = .ok (s, same)) : Reachable s

end Vault
end Kilogram
