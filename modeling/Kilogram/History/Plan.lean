import Kilogram.History.Read

/-!
# Plans of the history writers

An operation is lowered to a plan: the records to put, the rows it claims to add and the credit actions
it makes.
-/

namespace Kilogram.History
open Kilogram Wire
open Except (failIf okOr)

inductive Purpose where
  | init | genesis | text | queue | pending | capture | repair | ack
  deriving DecidableEq

inductive Origin where
  | genesis
  | localText (queue : UInt64) (handle : Id)
  | peer
  deriving DecidableEq

structure RowClaim where
  event : Id
  role : UInt8
  ordinal : UInt64
  origin : Origin
  refs : List Key

structure Plan where
  protocol2 : Bool
  context : UInt8
  purpose : Purpose
  puts : Std.TreeMap Key Bytes
  allowed : Finset Key
  rows : List RowClaim
  credits : List CreditAction

namespace Plan

def new (context : UInt8) (purpose : Purpose) : Plan := ⟨false, context, purpose, ∅, ∅, [], []⟩

def put (p : Plan) (k : Key) (value : Bytes) : Result Plan := do
  failIf ((p.puts[k]?).any (· ≠ value)) .conflict
  return { p with puts := p.puts.insert k value, allowed := insert k p.allowed }

/-- A put under a key that may not exist. -/
def putAt (p : Plan) (k : Result Key) (value : Bytes) : Result Plan := do
  let k ← k
  p.put k value

def addAuth (p : Plan) (auth : Auth) : Result (Plan × Key) := do
  auth.checkBound
  let k ← Key.hash p.context .auth auth.id
  let p ← p.put k auth.bytes
  return (p, k)

def addAuths (p : Plan) : List Auth → Result (Plan × List Key)
  | [] => return (p, [])
  | auth :: rest => do
    let (p, k) ← p.addAuth auth
    let (p, ks) ← p.addAuths rest
    return (p, k :: ks)

def addCredit (p : Plan) (a : CreditAction) : Plan := { p with credits := p.credits ++ [a] }

def addCapture (p : Plan) (ordinal : UInt64) (event : Id) (capture : Capture) : Result Plan := do
  let (p, _) ← p.addAuth capture.original
  let (p, _) ← p.addAuth capture.admission
  return p.addCredit (.capturePending p.context ordinal event capture.original.id capture.admission.id)

end Plan

/-- Keys in order, each once. -/
def canonicalKeys (ks : List Key) : List Key := (ks.insertionSort fun j k => j.code ≤ k.code).dedup

section
variable [Primitives] (r : Root)

/-- The view a stored binding stands for. -/
def boundViewId (b : StoredBinding) : Result Id := (Identity.mk r.incarnation b.init).viewId

def checkRowLinks (p : Plan) (b : StoredBinding) (view : Id) (row : RowClaim) : Result Unit := do
  let fk ← finalKey p.context view row.event
  failIf (p.puts[fk]? = none ∨ fk ∉ row.refs) (.bound "missing F row link")
  if row.role ≠ b.role ∧ row.ordinal > 0 then do
    let rk ← wireReceiptKey p.context view row.role row.ordinal
    failIf (p.puts[rk]? = none ∨ rk ∉ row.refs) (.bound "missing receipt row link")
  else return ()

def checkAckLinks (p : Plan) (b : StoredBinding) (view : Id) : Result Unit :=
  match p.credits.head? with
  | some (.acknowledge _ ordinal _ records) => do
    let k ← wireReceiptKey p.context view b.role ordinal
    failIf (p.puts[k]? = none ∨ k ∉ records) (.bound "missing ACK wire evidence")
  | _ => throw .conflict

def history2ExtraCheck (p : Plan) : Result Unit := do
  if p.protocol2 = false then return ()
  else if p.purpose = .init then do
    let k ← bindingKey p.context
    failIf (p.puts[k]? = none) (.bound "missing protocol2 binding")
  else do
    let (b, _) ← (protoRequired r p.context).value
    let view ← boundViewId r b
    failIf (p.purpose = .pending ∧ p.credits.length ≠ 2) (.bound "mandatory pending capture")
    forM p.rows (checkRowLinks p b view)
    if p.purpose = .ack then checkAckLinks p b view else return ()

/-- A bundle a link may refer to: put by the plan itself or stored before. -/
def linkedAuth (p : Plan) (id : Id) (missing : Error) : Result AuthFields := do
  let k ← Key.hash p.context .auth id
  let stored ← r.get k
  let raw ← okOr ((p.puts[k]?).or stored) missing
  readAuthBundle raw

/-- Whether a key is a link of this row; none when the row says nothing about it. -/
def allowedRowLink (p : Plan) (b : StoredBinding) (fresh : FreshFields) (view : Id) (k : Key)
    (value : Bytes) (row : RowClaim) : Result (Option Bool) := do
  let fk ← finalKey p.context view row.event
  if k = fk then do
    let id ← fId value
    let auth ← linkedAuth r p id (.integrity "F missing")
    return some (auth.id = id ∧ auth.cert = fresh.certs.get row.role)
  else do
    let rk ← wireReceiptKey p.context view row.role row.ordinal
    if k = rk ∧ row.role ≠ b.role ∧ row.ordinal > 0 then do
      let ek ← Key.hash p.context .event row.event
      let raw ← okOr (p.puts[ek]?) .conflict
      let e ← readEvent2 raw
      let f ← readReceipt2 (← receiptRaw value)
      let af ← linkedAuth r p f.auth (.integrity "R missing")
      return some (f.scope = e.scope ∧ f.q = e.q ∧ f.format = 2 ∧ f.role = e.role ∧ f.n = e.n ∧
        f.event = e.id ∧ f.cert = fresh.certs.get (1 - e.role) ∧ af.id = f.auth ∧ af.cert = f.cert)
    else return none

def allowedRowLinks (p : Plan) (b : StoredBinding) (fresh : FreshFields) (view : Id) (k : Key)
    (value : Bytes) : List RowClaim → Result Bool
  | [] => return false
  | row :: rows => do
    match ← allowedRowLink r p b fresh view k value row with
    | some ok => return ok
    | none => allowedRowLinks p b fresh view k value rows

def allowedAckLink (p : Plan) (b : StoredBinding) (fresh : FreshFields) (view : Id) (k : Key)
    (value : Bytes) : Result Bool := do
  let raw ← receiptRaw value
  let f ← readReceipt2 raw
  let wk ← wireReceiptKey p.context view b.role f.n
  if k ≠ wk ∨ f.role ≠ b.role then return false
  else do
    let source ← (hrequired r (Key.hash p.context .event f.event)).value
    let e ← readEvent2 source
    let ak ← Key.hash p.context .auth f.auth
    let map : AuthMap := match p.puts[ak]? with
      | some bytes => (∅ : AuthMap).insert f.auth bytes
      | none => ∅
    let _ ← (checkReceipt r p.context raw e b fresh map).value
    return true

/-- The binding a first plan stores must stand for the identity it stores. -/
def allowedInitBinding (p : Plan) (k : Key) (value : Bytes) : Result Bool := do
  let bk ← bindingKey p.context
  if k ≠ bk then return false
  else do
    let (b, tail) ← StoredBinding.takeFromBytes value
    let _ ← b.fields
    if tail ≠ [] ∨ b.c ≠ r.contexts.get p.context then return false
    else do
      let ik ← identityKey p.context
      match (Identity.mk r.incarnation b.init).encode with
      | .ok bytes => return p.puts[ik]? = some bytes
      | .error _ => return false

def history2AllowedControl (p : Plan) (k : Key) (value : Bytes) : Result Bool := do
  if p.protocol2 = false then return false
  else if p.purpose = .init then allowedInitBinding r p k value
  else do
    let (b, fresh) ← (protoRequired r p.context).value
    let view ← boundViewId r b
    if p.purpose = .genesis ∨ p.purpose = .text then allowedRowLinks r p b fresh view k value p.rows
    else if p.purpose = .ack then allowedAckLink r p b fresh view k value
    else return false

omit [Primitives] in
def expectedActions (p : Plan) : Bool :=
  match p.purpose with
  | .init | .genesis => p.credits = []
  | .text => p.rows ≠ [] ∧ p.rows.length ≤ 4 ∧ p.credits.length = p.rows.length
  | .pending => p.credits.length = 1 ∨ p.credits.length = 2
  | _ => p.credits.length = 1

omit [Primitives] in
/-- A pending frame comes first, and at most the capture of the same frame follows. -/
def checkPendingActions (p : Plan) : Result Unit :=
  match p.credits with
  | .pending _ ordinal event _ _ _ :: rest =>
    match rest with
    | [] => return ()
    | .capturePending _ n id _ _ :: _ => failIf (¬ (n = ordinal ∧ id = event)) .conflict
    | _ :: _ => throw .conflict
  | _ => throw .conflict

omit [Primitives] in
def checkActions (p : Plan) : Result Unit := do
  failIf (expectedActions p = false) (.bound "history transition cardinality")
  if p.purpose = .pending then checkPendingActions p else return ()

omit [Primitives] in
def checkGlobalPut (p : Plan) (k : Key) (value : Bytes) : Result Unit := do
  if k.ns.global then do
    failIf (value.length ≠ 64 ∨ value.take 32 ≠ (r.contexts.get p.context).bytes) .conflict
    failIf ((r.records[k.place]?).any (·.owner ≠ p.context)) .conflict
  else return ()

/-- What a plan that adds rows may put under a key. -/
def allowedRowPut (p : Plan) (k : Key) (value : Bytes) : Result Bool := do
  match k.ns with
  | .control => history2AllowedControl r p k value
  | .event | .projection => return p.rows.any (·.event = k.bytes)
  | .laneA | .laneB =>
    return p.rows.any fun row => match lane p.context row.role row.ordinal with
      | .ok j => j = k
      | .error _ => false
  | .current => do
    let hk ← headsKey p.context
    return k = hk
  | .native => return k.bytes = 0
  | .auth | .seenA | .seenB | .author0 | .author1 | .author2 | .request | .receiptA | .receiptB =>
    return p.rows.any (k ∈ ·.refs)
  | _ => return false

def allowedPut (p : Plan) (k : Key) (value : Bytes) : Result Bool := do
  match p.purpose with
  | .init => do
    let ik ← identityKey p.context
    let hk ← headsKey p.context
    if k = ik ∨ k = hk then return true
    else if k.ns = .control then history2AllowedControl r p k value
    else return false
  | .queue => return k.ns = .request
  | .pending | .capture => return k.ns = .auth
  | .repair => return false
  | .ack =>
    if k.ns = .control then history2AllowedControl r p k value
    else return k.ns = .receiptA ∨ k.ns = .receiptB ∨ k.ns = .auth
  | .genesis | .text => allowedRowPut r p k value

def checkPut (p : Plan) (entry : Key × Bytes) : Result Unit := do
  failIf (entry.1.context ≠ p.context) (.bound "history cross-context effect")
  let _ ← entry.1.slot
  checkGlobalPut r p entry.1 entry.2
  let ok ← allowedPut r p entry.1 entry.2
  failIf (ok = false) (.bound "history effect purpose/correspondence")

omit [Primitives] in
/-- The three records of a row are put by the plan and are new. -/
def checkNewRecord (p : Plan) (k : Key) : Result Unit := do
  failIf (p.puts[k]? = none) .conflict
  let stored ← r.get k
  failIf (stored ≠ none) .conflict

def checkLocalOrigin (p : Plan) (identity : Identity) (row : RowClaim) (projection : ProjectionValue)
    (binding : Binding) (queue : UInt64) (handle : Id) : Result Unit := do
  let raw ← (hrequired r (Key.ordinal p.context .queue queue)).value
  let (ticket, body) ← historyTicket raw 1
  let rk ← Key.request p.context binding.request
  let request ← RequestRecord.decode (← okOr (p.puts[rk]?) .conflict)
  failIf (binding.kind ≠ 3 ∨ row.role ≠ identity.init.ownRole ∨ ticket ≠ handle ∨
    handle ≠ requestHandle binding.request ∨ body ≠ projection.text.bytes ∨
    request.queue ≠ queue ∨ request.request ≠ binding.request ∨ request.event ≠ some row.event ∨
    request.bodyHash ≠ bodyHash body) .conflict

omit [Primitives] in
def checkPeerOrigin (p : Plan) (identity : Identity) (row : RowClaim) (binding : Binding)
    (source : Bytes) : Result Unit := do
  let raw ← (hrequired r (Key.ordinal p.context .pending row.ordinal)).value
  let pending ← pendingView raw
  let k ← receipt p.context row.role row.ordinal
  failIf (binding.kind ≠ 3 ∨ row.role = identity.init.ownRole ∨ pending.event ≠ row.event ∨
    pending.body ≠ source ∨ p.puts[k]? ≠ some row.event.bytes) .conflict

def checkOrigin (p : Plan) (identity : Identity) (row : RowClaim) (projection : ProjectionValue)
    (binding : Binding) (source : Bytes) : Result Unit :=
  match row.origin with
  | .genesis => failIf (binding.kind = 3 ∨ projection.text ≠ Text.empty) .conflict
  | .localText queue handle => checkLocalOrigin r p identity row projection binding queue handle
  | .peer => checkPeerOrigin r p identity row binding source

def checkRow (p : Plan) (row : RowClaim) : Result Unit := do
  let ek ← Key.hash p.context .event row.event
  let pk ← Key.hash p.context .projection row.event
  let lk ← lane p.context row.role row.ordinal
  forM [ek, pk, lk] (checkNewRecord r p)
  let projection ← ProjectionValue.decode (← okOr (p.puts[pk]?) .conflict)
  let binding ← Binding.decode projection.binding
  let (identity, heads) ← (historyView r p.context).value
  failIf (binding.view ≠ heads.view ∨ binding.role ≠ row.role ∨ binding.ordinal ≠ row.ordinal) .conflict
  let source ← okOr (p.puts[ek]?) .conflict
  binding.verifySource row.event source
  checkOrigin r p identity row projection binding source

/-- The rows, each with a slot and an event that no earlier row claims. -/
def checkRows (p : Plan) : List RowClaim → List RowClaim → Result Unit
  | _, [] => return ()
  | earlier, row :: rows => do
    failIf (earlier.any fun q =>
      (q.role = row.role ∧ q.ordinal = row.ordinal) ∨ q.event = row.event) .conflict
    checkRow r p row
    checkRows p (row :: earlier) rows

omit [Primitives] in
/-- What an action consumes: a queue or pending slot, for the row it settles. -/
def consumption (p : Plan) : CreditAction → Result (Option (Bool × UInt64 × Id))
  | .materialize _ queue request ordinal event records => do
    failIf (¬ p.rows.any fun row => row.event = event ∧ row.ordinal = ordinal ∧
      row.origin = .localText queue request ∧ row.refs = records) .conflict
    return some (false, queue, event)
  | .readable _ ordinal event records => do
    failIf (¬ p.rows.any fun row => row.event = event ∧ row.ordinal = ordinal ∧
      row.origin = .peer ∧ row.refs = records) .conflict
    return some (true, ordinal, event)
  | _ => return none

omit [Primitives] in
def allowedAction (purpose : Purpose) (a : CreditAction) : Bool :=
  match purpose, a with
  | .text, .materialize .. | .text, .readable .. => true
  | .queue, .queue .. => true
  | .pending, .pending .. | .pending, .capturePending .. => true
  | .capture, .capturePending .. => true
  | .repair, .grant .. | .repair, .cancelGrant .. | .repair, .refill .. => true
  | .ack, .acknowledge .. => true
  | _, _ => false

/-- The slots consumed and the events matched so far. -/
structure Matching where
  consumed : List (Bool × UInt64)
  matched : List Id

omit [Primitives] in
def consume (p : Plan) (m : Matching) : Option (Bool × UInt64 × Id) → Result Matching
  | none => return m
  | some (kind, key, event) => do
    failIf (p.purpose ≠ .text ∨ (kind, key) ∈ m.consumed ∨ event ∈ m.matched) .conflict
    return ⟨(kind, key) :: m.consumed, event :: m.matched⟩

omit [Primitives] in
def checkAction (p : Plan) (m : Matching) (a : CreditAction) : Result Matching := do
  failIf (a.context ≠ p.context ∨ a.refs.any fun k => k.context ≠ p.context ∨ k ∉ p.allowed)
    (.bound "history cross-context/extra credit ref")
  let m ← consume p m (← consumption p a)
  failIf (allowedAction p.purpose a = false) (.bound "history credit purpose")
  return m

omit [Primitives] in
def checkSourcePurpose (p : Plan) : Result Unit := do
  let k ← Key.hash p.context .native 0
  let hasSource : Prop := p.purpose = .text ∨ p.purpose = .genesis
  failIf (¬ (p.puts[k]? ≠ none ↔ hasSource) ∨ hasSource ∧ p.rows = [] ∨
    p.purpose = .text ∧ p.rows.any (·.ordinal = 0) ∨
    p.purpose = .genesis ∧ p.rows.map (·.ordinal) ≠ [0] ∨ ¬ hasSource ∧ p.rows ≠ [])
    (.bound "history Native/source purpose")

def historyValidatePlan (p : Plan) : Result Unit := do
  history2ExtraCheck r p
  failIf (p.puts.keys.toFinset ≠ p.allowed) (.bound "history extra effect")
  checkActions p
  forM p.puts.toList (checkPut r p)
  checkRows r p [] p.rows
  let m ← p.credits.foldlM (checkAction p) ⟨[], []⟩
  failIf (m.matched.toFinset ≠ ((p.rows.filter (·.origin ≠ .genesis)).map (·.event)).toFinset) .conflict
  checkSourcePurpose p

end

def putAll (w : Work) (puts : List (Key × Bytes)) : Result Work :=
  puts.foldlM (fun w entry => w.put entry.1 entry.2 0 false) w

def historyExecute [Primitives] (w : Work) (p : Plan) : Result Work := do
  historyValidatePlan w.root p
  let w ← putAll w p.puts.toList
  p.credits.foldlM Credits.apply w

end Kilogram.History
