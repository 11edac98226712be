import Kilogram.History.Plan

/-!
# The plain history writer

The lowering of each history operation to a plan, the guard that keeps generic commits away from a
managed history, and the checks made before a retried commit is recognised.
-/

namespace Kilogram.History
open Kilogram Wire
open Except (failIf okOr)

inductive Mutation where
  | put (key : Key) (value : Bytes)
  | retire (key replacement : Key)

def Mutation.key : Mutation → Key
  | put key _ | retire key _ => key

section
variable [Primitives] (r : Root)

def guardMutation (m : Mutation) : Result Unit := do
  let ik ← identityKey m.key.context
  let hk ← headsKey m.key.context
  failIf (m.key = ik ∨ m.key = hk) (.bound "reserved history key")

omit [Primitives] in
/-- The records an action reads beyond its tickets. -/
def guardAction (a : CreditAction) : Result (List Key) := do
  failIf (a.context > 1) (.bound "credit context")
  match a with
  | .capturePending c _ _ original admission => do
    let ok ← Key.hash c .auth original
    let ak ← Key.hash c .auth admission
    return [ok, ak]
  | _ => return a.refs

omit [Primitives] in
/-- The contexts a key touches: its own, and the owner of an existing record of a shared tree. -/
def guardKey (k : Key) : Result (List UInt8) := do
  let _ ← k.slot
  if k.ns.global then
    match r.records[k.place]? with
    | none => return [k.context]
    | some leaf => do
      failIf (leaf.owner > 1) (.integrity "Author owner")
      let _ ← (hrequired r (.ok k)).value
      return [k.context, leaf.owner]
  else return [k.context]

def guardContext (c : UInt8) : Result Unit := do
  let identity ← (hget r (identityKey c)).value
  failIf (identity ≠ none) (.bound "managed history writer required")
  let heads ← (hget r (headsKey c)).value
  failIf (heads ≠ none) (.bound "managed history writer required")

def historyGuardGeneric (mutations : List Mutation) (actions : List CreditAction) : Result Unit := do
  forM mutations guardMutation
  let cited ← actions.mapM guardAction
  let touched ← (mutations.map Mutation.key ++ cited.flatten).mapM (guardKey r)
  forM (actions.map CreditAction.context ++ touched.flatten) (guardContext r)

/-- The last row of a lane, which may be its genesis. -/
def lastCandidate (c role : UInt8) (heads : Heads) (genesis : Candidate) : Result Candidate :=
  if heads.frontiers.get role - 1 = 0 then return genesis
  else (historyCandidate r c role (heads.frontiers.get role - 1) heads.view heads.frontiers).value

def coherentLane (c : UInt8) (heads : Heads) (role : UInt8) : Result Unit :=
  match heads.tails.get role with
  | none => return ()
  | some tail => do
    let genesis ← (historyCandidate r c role 0 heads.view heads.frontiers).value
    failIf (genesis.binding.kind ≠ role + 1) (.integrity "history genesis kind")
    let last ← lastCandidate r c role heads genesis
    failIf (last.row.id ≠ tail) (.integrity "history tail source")
    let suffix ← lane c role (heads.frontiers.get role)
    let s ← suffix.slot
    failIf (range r s suffix.bytes 1 ≠ []) (.integrity "history Lane suffix")

omit [Primitives] in
def checkNative (c : UInt8) (heads : Heads) : Result Unit := do
  let k ← Key.hash c .native 0
  let native ← (hget r (.ok k)).value
  let s ← k.slot
  let expected := if heads.tails.zero = none then 0 else 1
  failIf (r.count s ≠ expected ∨ native = none ∧ expected ≠ 0 ∨
    native.any fun raw => expected ≠ 1 ∨ raw = [] ∨ raw.length > 128 * 1024)
    (.integrity "history Native shape")

def historyCoherent (c : UInt8) (heads : Heads) : Result Unit := do
  let count0 ← (countAt r (lane c 0 0)).value
  let total ← addOr 0 count0 (.integrity "history count overflow")
  coherentLane r c heads 0
  let count1 ← (countAt r (lane c 1 0)).value
  let total ← addOr total count1 (.integrity "history count overflow")
  coherentLane r c heads 1
  let events ← (countAt r (Key.hash c .event 0)).value
  failIf (events ≠ total) (.integrity "history aggregate count")
  let projections ← (countAt r (Key.hash c .projection 0)).value
  failIf (projections ≠ total) (.integrity "history aggregate count")
  checkNative r c heads

omit [Primitives] in
/-- Nothing of this context is stored but the metadata of a runtime bootstrap. -/
def historyFresh (c : UInt8) : Result Unit := do
  let (used, reserved) ← r.totals
  let base := c.toNat * 24
  let runtime : Prop := r.layout = .runtime6
  let metadata := if runtime then r.usedIn (base + 21) c + r.usedIn 22 c else 0
  let metadataReserved := if runtime then r.reservedIn (base + 21) c + r.reservedIn 22 c else 0
  failIf ((List.range (if runtime then 21 else 24)).any (fun i => r.count (base + i) ≠ 0) ∨
      [48, 49, 50].any (fun s => r.usedIn s c ≠ 0 ∨ r.reservedIn s c ≠ 0) ∨
      (List.range' 51 13).any (fun s => r.count s ≠ 0) ∨
      (r.ledger.get c).isPristine = false ∨ used.get c ≠ metadata ∨
      reserved.get c ≠ metadataReserved) .existingStateRequiresMigration

/-- What a batch has built after some of its rows. -/
structure Batch where
  plan : Plan
  heads : Heads
  staged : Std.TreeMap Id Binding
  frameIds : List Id
  queueStart : UInt64

def rowBinding (view : Id) (row : PreparedReadable) : Result Binding := do
  let core ← coreSpan row.source row.coreOffset row.coreLen
  let b : Binding := {
    format := row.format, view, kind := row.kind, role := row.role, ordinal := row.ordinal
    sequence := row.sequence, request := row.request, previous := row.previous
    coreOffset := row.coreOffset, coreLen := row.coreLen
    coreHash := Binding.coreHashOf row.format core
    sourceHash := Binding.sourceHashOf row.format row.source
    parents := row.parents }
  b.check
  return b

omit [Primitives] in
/-- A genesis row opens its lane, the first lane before the second; a text row extends its lane. -/
def checkRowHeads (genesis : Bool) (heads : Heads) (b : Binding) (text : Text) : Result Unit :=
  if genesis then
    failIf (b.kind = 3 ∨ text ≠ Text.empty ∨ heads.tails.get b.role ≠ none ∨
      b.role = 1 ∧ heads.tails.zero = none ∨ b.role = 0 ∧ heads.tails.one ≠ none) .conflict
  else
    failIf (b.kind ≠ 3 ∨ heads.tails.zero = none ∨ heads.tails.one = none ∨
      b.ordinal ≠ heads.frontiers.get b.role ∨ b.previous ≠ heads.tails.get b.role) .conflict

/-- The binding of a parent: of an earlier row of the batch, or stored and on its lane. -/
def parentBinding (c : UInt8) (view : Id) (staged : Std.TreeMap Id Binding) (p : Parent) : Result Binding :=
  match staged[p.event]? with
  | some b => return b
  | none => do
    let found ← (historyProjection r c p.event view).value
    let (b, _) ← okOr found (.integrity "history writer parent")
    let id ← (laneId r c p.role p.ordinal).value
    failIf (id ≠ p.event) .conflict
    return b

def checkRowParent (c : UInt8) (id : Id) (heads : Heads) (staged : Std.TreeMap Id Binding)
    (p : Parent) : Result Unit := do
  let b ← parentBinding r c heads.view staged p
  failIf (p.event = id ∨ b.kind ≠ 3 ∨ b.role ≠ p.role ∨ b.ordinal ≠ p.ordinal ∨
    p.ordinal ≥ heads.frontiers.get p.role) .conflict

/-- Where a row comes from: its origin, the record of its own it puts, and where the queue of the
next local row starts. -/
structure Source where
  plan : Plan
  origin : Origin
  records : List Key
  queueStart : UInt64

/-- A local text must be the first of the queue that no earlier row of the batch took. -/
def localOrigin (c : UInt8) (view : Id) (b : Binding) (text : Text) (id : Id) (queueStart : UInt64)
    (p : Plan) : Result Source := do
  let found ← (historyRequestRecord r c b.request view).value
  let (request, stored) ← okOr found .conflict
  failIf (request.event ≠ none ∨ stored ≠ text) .conflict
  let first ← Key.ordinal c .queue queueStart
  let s ← first.slot
  let wanted ← Key.ordinal c .queue request.queue
  failIf ((range r s first.bytes 1).head? ≠ some wanted.bytes) .conflict
  let next ← okOr (checkedAdd request.queue 1) (.bound "history FIFO overflow")
  let rk ← Key.request c b.request
  let p ← p.put rk { request with event := some id }.encode
  return ⟨p, .localText request.queue (requestHandle b.request), [rk], next⟩

omit [Primitives] in
/-- A text of the peer must be the pending frame of its ordinal. -/
def peerOrigin (c : UInt8) (b : Binding) (source : Bytes) (id : Id) (queueStart : UInt64)
    (p : Plan) : Result Source := do
  let raw ← (hrequired r (Key.ordinal c .pending b.ordinal)).value
  let pending ← pendingView raw
  failIf (pending.event ≠ id ∨ pending.body ≠ source) .conflict
  let k ← receipt c b.role b.ordinal
  let p ← p.put k id.bytes
  return ⟨p, .peer, [k], queueStart⟩

def rowOrigin (c : UInt8) (identity : Identity) (genesis : Bool) (b : Binding)
    (row : PreparedReadable) (id : Id) (st : Batch) : Result Source :=
  if genesis then return ⟨st.plan, .genesis, [], st.queueStart⟩
  else if b.role = identity.init.ownRole then
    localOrigin r c st.heads.view b row.text id st.queueStart st.plan
  else peerOrigin r c b row.source id st.queueStart st.plan

omit [Primitives] in
def putSeen (p : Plan) (role : UInt8) (id : Id) : Option Seen → Result (Plan × List Key)
  | none => return (p, [])
  | some seen => do
    let k ← Key.hash p.context (if role = 0 then .seenA else .seenB) seen.key
    let p ← p.put k (SeenRecord.mk seen.generation id).encode
    return (p, [k])

omit [Primitives] in
def authorSlot : UInt8 → Option Namespace
  | 0 => some .author0
  | 1 => some .author1
  | 2 => some .author2
  | _ => none

omit [Primitives] in
def putAuthor (p : Plan) (context id : Id) (sequence : UInt64) : Option UInt8 → Result (Plan × List Key)
  | none => return (p, [])
  | some slot => do
    let ns ← okOr (authorSlot slot) (.bound "history Author slot")
    let k ← Key.ordinal p.context ns sequence
    let p ← p.put k (context.bytes ++ id.bytes)
    return (p, [k])

omit [Primitives] in
def rowCredit (c : UInt8) (origin : Origin) (ordinal : UInt64) (id : Id) (records : List Key) : List CreditAction :=
  match origin with
  | .genesis => []
  | .localText queue handle => [.materialize c queue handle ordinal id records]
  | .peer => [.readable c ordinal id records]

omit [Primitives] in
def nextFrontier (genesis : Bool) (frontier : UInt64) : Result UInt64 :=
  if genesis then return frontier
  else okOr (checkedAdd frontier 1) (.bound "history frontier overflow")

omit [Primitives] in
def advance (genesis : Bool) (heads : Heads) (role : UInt8) (id : Id) : Result Heads := do
  let frontier ← nextFrontier genesis (heads.frontiers.get role)
  return { heads with
    tails := heads.tails.set role (some id), frontiers := heads.frontiers.set role frontier }

/-- The records of a row, put after those of its origin. -/
def putRow (c : UInt8) (identity : Identity) (row : PreparedReadable) (b : Binding) (id : Id)
    (src : Source) : Result (Plan × List Key) := do
  let ek ← Key.hash c .event id
  let pk ← Key.hash c .projection id
  let lk ← lane c b.role b.ordinal
  let hk ← headsKey c
  let nk ← Key.hash c .native 0
  let p ← src.plan.put ek row.source
  let bindingRaw ← b.encode
  let projection ← (ProjectionValue.mk row.text bindingRaw).encode
  let p ← p.put pk projection
  let p ← p.put lk id.bytes
  let (p, auths) ← p.addAuths row.extras.auth
  let (p, seen) ← putSeen p b.role id row.extras.seen
  let (p, author) ← putAuthor p identity.init.scope.context id b.sequence row.extras.authorSlot
  return (p, canonicalKeys ([ek, pk, lk, hk, nk] ++ src.records ++ auths ++ seen ++ author))

def rowStep (c : UInt8) (identity : Identity) (genesis : Bool) (st : Batch)
    (row : PreparedReadable) : Result Batch := do
  failIf (row.scope ≠ identity.init.scope) .conflict
  let id ← row.eventId
  let b ← rowBinding st.heads.view row
  checkRowHeads genesis st.heads b row.text
  forM b.parents (checkRowParent r c id st.heads st.staged)
  let src ← rowOrigin r c identity genesis b row id st
  let (p, records) ← putRow c identity row b id src
  let heads ← advance genesis st.heads b.role id
  return {
    plan := { p with
      credits := p.credits ++ rowCredit c src.origin b.ordinal id records
      rows := p.rows ++ [⟨id, b.role, b.ordinal, src.origin, records⟩] }
    heads
    staged := st.staged.insert id b
    frameIds := st.frameIds ++ [id]
    queueStart := src.queueStart }

def historyRows (c : UInt8) (identity : Identity) (heads : Heads) (rows : List PreparedReadable)
    (native : NativeTransition) (genesis : Bool) : Result Plan := do
  let st ← rows.foldlM (rowStep r c identity genesis)
    ⟨Plan.new c (if genesis then .genesis else .text), heads, ∅, [], 0⟩
  failIf (st.frameIds ≠ native.frameIds) .conflict
  let k ← Key.hash c .native 0
  let old ← (hget r (.ok k)).value
  failIf (old.map Primitives.hash ≠ native.beforeHash) .conflict
  failIf (old = none ∧ (genesis = false ∨ st.plan.rows.head?.all (·.role ≠ 0))) .conflict
  let p ← st.plan.put k native.afterBlob
  p.putAt (headsKey c) st.heads.encode

/-- Once a context is bound to protocol 2, the plain writer only accepts texts and repairs. -/
def history2GuardOld (c : UInt8) (op : Operation) : Result Unit := do
  let bound ← (protoBinding r c).value
  let plain := match op with
    | .queueAccept .. | .repairCredit _ => true
    | _ => false
  failIf (bound ≠ none ∧ plain = false) (.bound "protocol2 managed writer required")

def initPlan (c : UInt8) (identity : Identity) : Result Plan := do
  let view ← identity.viewId
  let raw ← identity.encode
  let p ← (Plan.new c .init).putAt (identityKey c) raw
  p.putAt (headsKey c) (Heads.mk view ⟨1, 1⟩ ⟨none, none⟩).encode

/-- None when the same history is there already. -/
def lowerInit (c : UInt8) (init : Init) : Result (Option Plan) := do
  failIf (init.scope.context ≠ r.contexts.get c) .conflict
  match (historyView r c).value with
  | .ok (stored, heads) => do
    historyCoherent r c heads
    failIf (Identity.mk r.incarnation init ≠ stored) .conflict
    return none
  | .error .historyUnavailable => do
    historyFresh r c
    let p ← initPlan c ⟨r.incarnation, init⟩
    return some p
  | .error e => throw e

def lowerQueue (c : UInt8) (heads : Heads) (request : RequestId) (text : Text) : Result (Option Plan) := do
  match ← (historyRequestRecord r c request heads.view).value with
  | some (_, old) => do
    failIf (old ≠ text) .conflict
    return none
  | none => do
    let q := r.generation
    let taken ← (hget r (Key.ordinal c .queue q)).value
    failIf (taken ≠ none) .conflict
    let p ← (Plan.new c .queue).putAt (Key.request c request)
      (RequestRecord.mk q request (bodyHash text.bytes) none).encode
    return some (p.addCredit (.queue c q (requestHandle request) text.bytes))

omit [Primitives] in
def pendingPlan (c : UInt8) (p : Pending) (id : Id) : Result Plan := do
  let plan := (Plan.new c .pending).addCredit (.pending c p.ordinal id p.source p.head p.grant)
  match p.capture with
  | none => return plan
  | some capture => plan.addCapture p.ordinal id capture

def lowerPending (c : UInt8) (identity : Identity) (heads : Heads) (p : Pending) : Result (Option Plan) := do
  failIf (p.scope ≠ identity.init.scope) .conflict
  let id ← sourceId p.format p.source
  let peer := 1 - identity.init.ownRole
  if p.ordinal < heads.frontiers.get peer then do
    let old ← (historyCandidate r c peer p.ordinal heads.view heads.frontiers).value
    let source ← (hrequired r (Key.hash c .event old.row.id)).value
    failIf (¬ (old.row.id = id ∧ source = p.source)) .conflict
    return none
  else do
    failIf (p.head = true ∧ p.ordinal ≠ heads.frontiers.get peer) .conflict
    let plan ← pendingPlan c p id
    return some plan

omit [Primitives] in
def lowerCapture (c : UInt8) (identity : Identity) (heads : Heads) (ordinal : UInt64) (event : Id)
    (capture : Capture) : Result (Option Plan) := do
  let raw ← (hrequired r (Key.ordinal c .pending ordinal)).value
  let pending ← pendingView raw
  failIf (pending.event ≠ event ∨ ordinal < heads.frontiers.get (1 - identity.init.ownRole))
    .conflict
  let p ← (Plan.new c .capture).addCapture ordinal event capture
  return some p

omit [Primitives] in
def lowerRepair (c : UInt8) (identity : Identity) (heads : Heads) : Repair → Result (Option Plan)
  | .grant id start stop => do
    failIf (start < heads.frontiers.get (1 - identity.init.ownRole)) .conflict
    return some ((Plan.new c .repair).addCredit (.grant c id start stop))
  | .cancelGrant id => return some ((Plan.new c .repair).addCredit (.cancelGrant c id))
  | .refill bytes => return some ((Plan.new c .repair).addCredit (.refill c bytes))

def lowerAcknowledge (c : UInt8) (identity : Identity) (heads : Heads) (ordinal : UInt64)
    (event : Id) (auth : List Auth) : Result (Option Plan) := do
  let own := identity.init.ownRole
  let candidate ← (historyCandidate r c own ordinal heads.view heads.frontiers).value
  failIf (ordinal = 0 ∨ candidate.row.id ≠ event) .conflict
  let rk ← receipt c own ordinal
  match ← (hget r (Key.ordinal c .undelivered ordinal)).value with
  | none => do
    let stored ← (hrequired r (.ok rk)).value
    failIf (stored ≠ event.bytes) .conflict
    return none
  | some debt => do
    let (id, _) ← historyTicket debt 3
    failIf (id ≠ event) .conflict
    let p ← (Plan.new c .ack).put rk event.bytes
    let (p, auths) ← p.addAuths auth
    return some (p.addCredit (.acknowledge c ordinal event (canonicalKeys (rk :: auths))))

/-- The plan of an operation on an initialised context. -/
def lowerManaged (c : UInt8) (identity : Identity) (heads : Heads) : Operation → Result (Option Plan)
  | .init _ => throw (.bound "nested history init")
  | .genesis row native => do
    let p ← historyRows r c identity heads [row] native true
    return some p
  | .textBatch rows native => do
    let p ← historyRows r c identity heads rows native false
    return some p
  | .queueAccept request text => lowerQueue r c heads request text
  | .acceptPending p => lowerPending r c identity heads p
  | .capturePending ordinal event capture => lowerCapture r c identity heads ordinal event capture
  | .repairCredit repair => lowerRepair c identity heads repair
  | .acknowledge ordinal event auth => lowerAcknowledge r c identity heads ordinal event auth

omit [Primitives] in
def Plan.canonical (p : Plan) : Plan :=
  { p with rows := p.rows.map fun row => { row with refs := canonicalKeys row.refs } }

/-- The plan of an operation, or none when nothing is left to do. -/
def historyLower (c : UInt8) (op : Operation) : Result (Option Plan) := do
  history2GuardOld r c op
  match op with
  | .init init => lowerInit r c init
  | op => do
    let (identity, heads) ← (historyView r c).value
    let p ← lowerManaged r c identity heads op
    return p.map Plan.canonical

def historyCheckRetry (c : UInt8) (op : Operation) : Result Unit := do
  history2GuardOld r c op
  match op with
  | .init _ =>
    match (historyView r c).value with
    | .ok (_, heads) => historyCoherent r c heads
    | .error .historyUnavailable => return ()
    | .error e => throw e
  | _ => do
    let _ ← (historyView r c).value

end

def historyRun [Primitives] (w : Work) : Option Plan → Result Work
  | none => return w
  | some p => historyExecute w p

def historyApply [Primitives] (w : Work) (c : UInt8) (op : Operation) : Result Work := do
  let p ← historyLower w.root c op
  historyRun w p

end Kilogram.History
