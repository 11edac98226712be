import Kilogram.History.Writer

/-!
# The history writer of protocol 2

A dialog bound to protocol 2 derives everything it stores from the wire records themselves: the scope
and lane position of an event, its key generation, the authority of its author and the receipt of its
receiver.
-/

namespace Kilogram.History
open Kilogram Wire
open Except (failIf okOr)

structure Readable2 where
  source : Bytes
  text : Text
  auth : List Auth
  readableAuthorRef : Id
  receiverReceipt : Option Bytes

inductive Operation2 where
  | init (init : Init) (binding : Protocol2Binding)
  | genesis (row : Readable2) (native : NativeTransition)
  | textBatch (rows : List Readable2) (native : NativeTransition)
  | acceptPending (source : Bytes) (head : Bool) (grant : Option Id) (admissionAuthorRef : Id)
      (auth : List Auth)
  | acknowledge (receiptFormat : UInt8) (receiptRaw : Bytes) (auth : List Auth)

def checkAuthBound (auth : List Auth) (cap : Nat) : Result Unit := do
  failIf (auth.length > cap) (.bound "protocol2 auth count")
  forM auth Auth.checkBound

def Readable2.checkBound (row : Readable2) : Result Unit := do
  failIf (row.source.length > 16 * 1024 ∨ row.text.length > 4096 ∨
    row.receiverReceipt.any (·.length > 1024)) (.bound "protocol2 row")
  checkAuthBound row.auth 2

def Operation2.checkBound : Operation2 → Result Unit
  | .init i binding => do
    validateScope i.scope
    failIf (i.ownRole > 1 ∨ binding.proof.length > 16 * 1024 ∨
      binding.authorSlots.zero > 2 ∨ binding.authorSlots.one > 2) (.bound "protocol2 init")
  | .genesis row native => do
    row.checkBound
    native.checkBound
  | .textBatch rows native => do
    failIf (rows = [] ∨ rows.length > 4) (.bound "protocol2 batch")
    forM rows Readable2.checkBound
    native.checkBound
  | .acceptPending source _ _ _ auth => do
    failIf (source.length > 16 * 1024) (.bound "protocol2 pending")
    checkAuthBound auth 2
  | .acknowledge _ raw auth => do
    failIf (raw.length > 1024) (.bound "protocol2 receipt")
    checkAuthBound auth 1

/-- The last identifier is below the next one. -/
def follows (previous : Option Id) (id : Id) : Bool :=
  match previous with
  | none => true
  | some p => p < id

section
variable [Primitives] (r : Root)

def inputsFrom (previous : Option Id) (map : AuthMap) : List Auth → Result AuthMap
  | [] => return map
  | x :: xs => do
    let f ← readAuthBundle x.bytes
    failIf (x.id ≠ f.id ∨ follows previous x.id = false) (.bound "auth hash/order/duplicate")
    inputsFrom (some x.id) (map.insert x.id x.bytes) xs

/-- The authority bundles of an operation, by identifier. -/
def inputs (auth : List Auth) : Result AuthMap := inputsFrom none ∅ auth

omit [Primitives] in
def used (map : AuthMap) (required : List Id) : Result Unit :=
  failIf (map.keys.any (· ∉ required)) (.bound "UnusedAuth")

structure Link where
  id : Id
  role : UInt8
  n : UInt64
  finalRef : Id
  receipt : Option Bytes

/-- What a batch of protocol 2 has derived after some of its rows. -/
structure Derived where
  prepared : List PreparedReadable
  links : List Link
  auth : AuthMap
  events : Std.TreeMap Id EventFields
  seen : List ((UInt8 × Id) × SeenRecord)
  last : Two (Option EventFields)

def lastEvent (c : UInt8) (heads : Heads) (role : UInt8) : Result (Option EventFields) :=
  match heads.tails.get role with
  | none => return none
  | some id => do
    let source ← (protoSource r c id heads).value
    failIf (source.role ≠ role ∨ checkedAdd source.n 1 ≠ some (heads.frontiers.get role))
      (.integrity "protocol2 tail/head correspondence")
    return some source

/-- An event of this batch, or one stored before. -/
def firstSource (c : UInt8) (heads : Heads) (staged : Std.TreeMap Id EventFields) (id : Id) : Result EventFields :=
  match staged[id]? with
  | some first => return first
  | none => (protoSource r c id heads).value

def protoFirst (c : UInt8) (heads : Heads) (seen : SeenRecord) (lane : EventFields)
    (staged : Std.TreeMap Id EventFields) : Result Id := do
  let first ← firstSource r c heads staged seen.firstEvent
  failIf (seen.generation ≠ lane.g ∨ first.id ≠ seen.firstEvent ∨ first.g ≠ lane.g ∨
    first.key ≠ lane.key ∨ first.role ≠ lane.role ∨ first.scope ≠ lane.scope ∨ first.q ≠ lane.q ∨
    first.index ≠ 0) (.integrity "seen continuity")
  return seen.firstEvent

/-- The captures of a pending frame, resolved against stored authority only. -/
def pendingAuthority (c : UInt8) (e : EventFields) (source : Bytes) (fresh : FreshFields) : Result Unit := do
  let raw ← (hrequired r (Key.ordinal c .pending e.n)).value
  let pending ← pendingView raw
  failIf (pending.body ≠ source) .conflict
  let captures ← okOr (← pendingCaptures raw) (.integrity "mandatory captures")
  failIf (captures.1 ≠ e.author) .conflict
  let _ ← (resolveAuth r c captures.1 (fresh.certs.get e.role) ∅ ∅).value
  let _ ← (resolveAuth r c captures.2 (fresh.certs.get e.role) ∅ ∅).value

/-- The authority a row brings along: of its author unless the peer sent it, of its reader, and of
the receipt for a text of the peer. -/
def rowAuthority (c : UInt8) (b : StoredBinding) (fresh : FreshFields) (staged : AuthMap)
    (row : Readable2) (e : EventFields) : Result (List Auth) := do
  let map ← inputs row.auth
  if e.kind = 3 ∧ e.role ≠ b.role then do
    pendingAuthority r c e row.source fresh
    let f ← (resolveAuth r c row.readableAuthorRef (fresh.certs.get e.role) map staged).value
    let raw ← okOr row.receiverReceipt (.integrity "receipt required")
    let a ← (checkReceipt r c raw e b fresh map).value
    used map [row.readableAuthorRef, a.id]
    return [f, a]
  else do
    let a ← (resolveAuth r c e.author (fresh.certs.get e.role) map staged).value
    let f ← (resolveAuth r c row.readableAuthorRef (fresh.certs.get e.role) map staged).value
    failIf (row.receiverReceipt ≠ none) .conflict
    used map [row.readableAuthorRef, e.author]
    return [a, f]

omit [Primitives] in
def dedupFrom (x : Auth) : List Auth → List Auth
  | [] => [x]
  | y :: rest => if y.id = x.id then dedupFrom x rest else x :: dedupFrom y rest

omit [Primitives] in
/-- Bundles by identifier, each once. -/
def canonicalAuth (auth : List Auth) : List Auth :=
  match auth.insertionSort fun a b => a.id ≤ b.id with
  | [] => []
  | x :: rest => dedupFrom x rest

omit [Primitives] in
def checkPrior (e : EventFields) : Option EventFields → Result Unit
  | none => failIf (e.n ≠ 0) .conflict
  | some old => failIf (e.previous ≠ some old.id ∨ e.n ≠ (checkedAdd old.n 1).getD 0 ∨
      e.sequence ≤ old.sequence) .conflict

def seenOf (c : UInt8) (st : Derived) (role : UInt8) (key : Id) : Result SeenRecord :=
  match st.seen.lookup (role, key) with
  | some s => return s
  | none => do
    let raw ← (hrequired r (seenKey c role key)).value
    seenRecord raw

/-- The parent a new key refers to: the first event of the other lane's current key. -/
def keyParent (c : UInt8) (heads : Heads) (st : Derived) (e : EventFields) : Result (Option Id) := do
  if e.n = 0 ∧ e.role = 0 then return none
  else do
    let other ← okOr (st.last.get (1 - e.role)) .conflict
    let seen ← seenOf r c st (1 - e.role) other.key
    let first ← protoFirst r c heads seen other st.events
    return some first

omit [Primitives] in
def nextGeneration : Option EventFields → Result UInt64
  | none => return 0
  | some old => okOr (checkedAdd old.g 1) (.bound "generation overflow")

/-- The first message under a new key. -/
def checkNewKey (c : UInt8) (heads : Heads) (st : Derived) (e : EventFields)
    (prior : Option EventFields) : Result Unit := do
  let g ← nextGeneration prior
  failIf (e.g ≠ g ∨ e.index ≠ 0) .conflict
  failIf (e.tail ≠ prior.map fun old => ⟨old.g, old.key, old.index, old.id⟩) .conflict
  let parent ← keyParent r c heads st e
  failIf (e.parent ≠ parent ∨ (st.seen.lookup (e.role, e.key)).isSome) .conflict
  let stored ← (hget r (seenKey c e.role e.key)).value
  failIf (stored ≠ none) .conflict

/-- A further message under the key of the one before. -/
def checkSameKey (c : UInt8) (heads : Heads) (st : Derived) (e old : EventFields) : Result Unit := do
  failIf (e.g ≠ old.g ∨ checkedAdd old.index 1 ≠ some e.index ∨ e.parent ≠ old.parent ∨ e.tail ≠ none) .conflict
  let seen ← seenOf r c st e.role e.key
  let _ ← protoFirst r c heads seen e st.events

/-- Whether a message starts a new key, after the checks of its key. -/
def checkKey (c : UInt8) (heads : Heads) (st : Derived) (e : EventFields) : Result Bool :=
  match st.last.get e.role with
  | none => do
    checkNewKey r c heads st e none
    return true
  | some old =>
    if old.key ≠ e.key then do
      checkNewKey r c heads st e (some old)
      return true
    else do
      checkSameKey r c heads st e old
      return false

def rowParent (c : UInt8) (view : Id) (events : Std.TreeMap Id EventFields) (parent : Id) : Result Parent :=
  match events[parent]? with
  | some p => return ⟨parent, p.role, p.n⟩
  | none => do
    let found ← (historyProjection r c parent view).value
    let (p, _) ← okOr found .conflict
    failIf (p.kind ≠ 3) .conflict
    return ⟨parent, p.role, p.ordinal⟩

def protoRow (c : UInt8) (heads : Heads) (b : StoredBinding) (fresh : FreshFields) (genesis : Bool)
    (st : Derived) (row : Readable2) : Result Derived := do
  let e ← readEvent2 row.source
  checkScope e b fresh
  failIf (¬ (genesis = true ↔ e.n = 0)) .conflict
  let authority ← rowAuthority r c b fresh st.auth row e
  checkPrior e (st.last.get e.role)
  let new ← checkKey r c heads st e
  failIf (checkedAdd e.index 1 = none) (.bound "native post index")
  failIf (checkedAdd e.sequence 1 = none) (.bound "author overflow")
  let parents ← e.parents.mapM (rowParent r c heads.view st.events)
  return {
    prepared := st.prepared ++ [{
      scope := e.scope, format := 2, source := row.source, coreOffset := e.coreOffset
      coreLen := e.coreLen, kind := e.kind, role := e.role, ordinal := e.n, sequence := e.sequence
      request := if e.n = 0 then 0 else e.request
      previous := e.previous, parents, text := row.text
      extras := {
        auth := canonicalAuth authority
        seen := if new then some ⟨e.key, e.g⟩ else none
        authorSlot := some (b.slots.get e.role) } }]
    links := st.links ++ [⟨e.id, e.role, e.n, row.readableAuthorRef, row.receiverReceipt⟩]
    auth := authority.foldl (fun m a => m.insert a.id a.bytes) st.auth
    events := st.events.insert e.id e
    seen := if new then ((e.role, e.key), ⟨e.g, e.id⟩) :: st.seen else st.seen
    last := st.last.set e.role (some e) }

omit [Primitives] in
/-- Cite further records in the row of an event and in the action that settles it. -/
def citeMore (event : Id) (added : List Key) (p : Plan) : Plan :=
  { p with
    rows := p.rows.map fun row =>
      if row.event = event then { row with refs := canonicalKeys (row.refs ++ added) } else row
    credits := p.credits.map fun a => match a with
      | .materialize c queue request ordinal id records =>
        .materialize c queue request ordinal id
          (if id = event then canonicalKeys (records ++ added) else records)
      | .readable c ordinal id records =>
        .readable c ordinal id (if id = event then canonicalKeys (records ++ added) else records)
      | a => a }

def addLink (c : UInt8) (identity : Identity) (p : Plan) (l : Link) : Result Plan := do
  let view ← identity.viewId
  let fk ← finalKey c view l.id
  let p ← p.put fk (fValue l.finalRef)
  match l.receipt with
  | none => return citeMore l.id [fk] p
  | some raw => do
    let rk ← wireReceiptKey c view l.role l.n
    let p ← p.put rk (receiptValue raw)
    return citeMore l.id [fk, rk] p

def protoRows (c : UInt8) (identity : Identity) (heads : Heads) (b : StoredBinding)
    (fresh : FreshFields) (rows : List Readable2) (native : NativeTransition) (genesis : Bool) :
    Result Plan := do
  let last0 ← lastEvent r c heads 0
  let last1 ← lastEvent r c heads 1
  let st ← rows.foldlM (protoRow r c heads b fresh genesis) ⟨[], [], ∅, ∅, [], ⟨last0, last1⟩⟩
  let p ← historyRows r c identity heads st.prepared native genesis
  st.links.foldlM (addLink c identity) { p with protocol2 := true }

def lowerInit2 (c : UInt8) (init : Init) (binding : Protocol2Binding) : Result (Option Plan) := do
  let stored := StoredBinding.new init binding
  let raw ← stored.encode
  match ← (protoBinding r c).value with
  | some (old, _) => do
    let oldRaw ← old.encode
    failIf (oldRaw ≠ raw) .conflict
    let (_, heads) ← (historyView r c).value
    historyCoherent r c heads
    return none
  | none => do
    historyFresh r c
    failIf (stored.c ≠ r.contexts.get c) .conflict
    let p ← initPlan c ⟨r.incarnation, stored.init⟩
    let p ← { p with protocol2 := true }.putAt (bindingKey c) raw
    return some p

/-- A pending frame that is there already, or has become readable. -/
def pendingKnown (c : UInt8) (heads : Heads) (e : EventFields) (source : Bytes) (admission : Id) : Result Bool := do
  match ← (hget r (Key.ordinal c .pending e.n)).value with
  | some old => do
    let pending ← pendingView old
    let captures ← pendingCaptures old
    failIf (pending.event ≠ e.id ∨ pending.body ≠ source ∨ captures ≠ some (e.author, admission)) .conflict
    return true
  | none =>
    if e.n < heads.frontiers.get e.role then do
      let old ← (historyCandidate r c e.role e.n heads.view heads.frontiers).value
      let cap ← (hrequired r (Key.hash c .admission e.id)).value
      failIf (old.row.id ≠ e.id ∨ cap ≠ Credits.admissionValue (e.author, admission))
        .conflict
      return true
    else return false

def lowerPending2 (c : UInt8) (heads : Heads) (b : StoredBinding) (fresh : FreshFields)
    (source : Bytes) (head : Bool) (grant : Option Id) (admissionRef : Id) (auth : List Auth) :
    Result (Option Plan) := do
  let e ← readEvent2 source
  checkScope e b fresh
  failIf (e.kind ≠ 3 ∨ e.role = b.role) .conflict
  let map ← inputs auth
  used map [e.author, admissionRef]
  let original ← (resolveAuth r c e.author (fresh.certs.get e.role) map ∅).value
  let admission ← (resolveAuth r c admissionRef (fresh.certs.get e.role) map ∅).value
  if ← pendingKnown r c heads e source admissionRef then return none
  else do
    failIf (head = true ∧ e.n ≠ heads.frontiers.get e.role) .conflict
    let (p, _) ← { Plan.new c .pending with protocol2 := true }.addAuth original
    let (p, _) ← p.addAuth admission
    return some ((p.addCredit (.pending c e.n e.id source head grant)).addCredit
      (.capturePending c e.n e.id e.author admissionRef))

def lowerAcknowledge2 (c : UInt8) (heads : Heads) (b : StoredBinding) (fresh : FreshFields)
    (format : UInt8) (raw : Bytes) (auth : List Auth) : Result (Option Plan) := do
  failIf (format ≠ 2) .conflict
  let f ← readReceipt2 raw
  let map ← inputs auth
  used map [f.auth]
  failIf (f.role ≠ b.role) .conflict
  let candidate ← (historyCandidate r c b.role f.n heads.view heads.frontiers).value
  let source ← (hrequired r (Key.hash c .event candidate.row.id)).value
  let e ← readEvent2 source
  let receiver ← (checkReceipt r c raw e b fresh map).value
  let wk ← wireReceiptKey c heads.view f.role f.n
  match ← (hget r (.ok wk)).value with
  | some old => do
    let stored ← receiptRaw old
    failIf (stored ≠ raw) .conflict
    return none
  | none => do
    let debt ← (hrequired r (Key.ordinal c .undelivered f.n)).value
    let (id, _) ← historyTicket debt 3
    failIf (id ≠ e.id) .conflict
    let marker ← receipt c f.role f.n
    let p ← { Plan.new c .ack with protocol2 := true }.put marker e.id.bytes
    let p ← p.put wk (receiptValue raw)
    let (p, ak) ← p.addAuth receiver
    return some (p.addCredit (.acknowledge c f.n e.id [marker, wk, ak]))

/-- The plan of an operation, or none when nothing is left to do. -/
def history2Lower (c : UInt8) : Operation2 → Result (Option Plan)
  | .init init binding => lowerInit2 r c init binding
  | op => do
    let (b, fresh) ← (protoRequired r c).value
    let (identity, heads) ← (historyView r c).value
    match op with
    | .genesis row native => do
      let p ← protoRows r c identity heads b fresh [row] native true
      return some p
    | .textBatch rows native => do
      let p ← protoRows r c identity heads b fresh rows native false
      return some p
    | .acceptPending source head grant admission auth =>
      lowerPending2 r c heads b fresh source head grant admission auth
    | .acknowledge format raw auth => lowerAcknowledge2 r c heads b fresh format raw auth
    | .init .. => throw (.bound "nested Init2")

def checkRetryReceipt (c : UInt8) (heads : Heads) (role : UInt8) (n : UInt64) (raw : Bytes)
    (why : String) : Result Unit := do
  let stored ← (hrequired r (wireReceiptKey c heads.view role n)).value
  let found ← receiptRaw stored
  failIf (found ≠ raw) (.integrity why)

def retryRow (c : UInt8) (heads : Heads) (row : Readable2) : Result Unit := do
  let e ← readEvent2 row.source
  let _ ← (protoSource r c e.id heads).value
  let raw ← (hrequired r (Key.hash c .event e.id)).value
  let projection ← ProjectionValue.decode (← (hrequired r (Key.hash c .projection e.id)).value)
  let link ← fId (← (hrequired r (finalKey c heads.view e.id)).value)
  failIf (raw ≠ row.source ∨ projection.text ≠ row.text ∨ link ≠ row.readableAuthorRef)
    (.integrity "protocol2 retry source/projection/F")
  match row.receiverReceipt with
  | none => return ()
  | some raw => checkRetryReceipt r c heads e.role e.n raw "protocol2 retry row receipt"

def history2RetryRows (c : UInt8) (heads : Heads) (rows : List Readable2)
    (native : NativeTransition) : Result Unit := do
  forM rows (retryRow r c heads)
  let blob ← (hrequired r (Key.hash c .native 0)).value
  failIf (blob ≠ native.afterBlob) (.integrity "protocol2 retry Native")

def retryAcknowledge (c : UInt8) (heads : Heads) (b : StoredBinding) (fresh : FreshFields)
    (format : UInt8) (raw : Bytes) (auth : List Auth) : Result Unit := do
  failIf (format ≠ 2) .conflict
  let f ← readReceipt2 raw
  let source ← (protoSource r c f.event heads).value
  let map ← inputs auth
  used map [f.auth]
  let _ ← (checkReceipt r c raw source b fresh map).value
  checkRetryReceipt r c heads f.role f.n raw "protocol2 retry receipt"

def retryPending (c : UInt8) (b : StoredBinding) (fresh : FreshFields) (source : Bytes)
    (head : Bool) (admissionRef : Id) (auth : List Auth) : Result Unit := do
  let e ← readEvent2 source
  checkScope e b fresh
  let map ← inputs auth
  used map [e.author, admissionRef]
  let _ ← (resolveAuth r c e.author (fresh.certs.get e.role) map ∅).value
  let _ ← (resolveAuth r c admissionRef (fresh.certs.get e.role) map ∅).value
  let raw ← (hrequired r (Key.ordinal c .pending e.n)).value
  let pending ← pendingView raw
  let captures ← pendingCaptures raw
  failIf (pending.event ≠ e.id ∨ pending.body ≠ source ∨ pending.head ≠ head ∨
    captures ≠ some (e.author, admissionRef)) (.integrity "protocol2 retry pending")

/-- What must hold of the store before a commit is taken for a repetition of the last one. -/
def history2CheckRetry (c : UInt8) : Operation2 → Result Unit
  | .init .. => do
    match ← (hget r (identityKey c)).value with
    | none => return ()
    | some _ => do
      let _ ← (protoRequired r c).value
      let (_, heads) ← (historyView r c).value
      historyCoherent r c heads
  | op => do
    let (b, fresh) ← (protoRequired r c).value
    let (_, heads) ← (historyView r c).value
    historyCoherent r c heads
    match op with
    | .genesis row native => history2RetryRows r c heads [row] native
    | .textBatch rows native => history2RetryRows r c heads rows native
    | .acceptPending source head _ admission auth =>
      retryPending r c b fresh source head admission auth
    | .acknowledge format raw auth => retryAcknowledge r c heads b fresh format raw auth
    | .init .. => throw (.bound "nested Init2 retry")

end

def history2Apply [Primitives] (w : Work) (c : UInt8) (op : Operation2) : Result Work := do
  let p ← history2Lower w.root c op
  historyRun w p

end Kilogram.History
