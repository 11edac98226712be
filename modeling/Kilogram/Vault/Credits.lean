import Kilogram.Vault.Work

/-!
# Credit transitions

The nine credit actions, each as the step it makes on the working state of a commit.
-/

namespace Kilogram
open Except (failIf okOr)
namespace Postcard

def key (k : Key) : Bytes := k.context :: UInt8.ofNat k.ns.code :: k.bytes.bytes
def keys (ks : List Key) : Bytes := Postcard.list key ks

end Postcard

namespace Credits

def setLedger (w : Work) (c : UInt8) (l : Ledger) : Work :=
  { w with root := { w.root with ledger := w.root.ledger.set c l } }

/-- The ticket under a key, of the given stage and name. -/
def ticket (w : Work) (k : Key) (stage : UInt8) (id : Id) : Result Ticket := do
  let raw ← okOr (← w.get k) .conflict
  let t ← Ticket.decode raw
  failIf (t.stage ≠ stage ∨ t.id ≠ id) .conflict
  return t

/-- What a record still owes: its new charge, once. -/
def owed (w : Work) (spent : Finset Key) (k : Key) : Nat :=
  if k ∈ spent then 0 else (w.newCharge[k]?).getD 0

/-- What has been seen of the cited records. -/
structure Evidence where
  total : Nat
  (event projection receipt : Bool)
  (distinct spent : Finset Key)

def Evidence.add (w : Work) (c : UInt8) (event : Id) (e : Evidence) (k : Key) : Result Evidence := do
  failIf (k.context ≠ c ∨ k ∈ e.distinct ∨ k.ns.managed) (.bound "retention key")
  let found ← w.get k
  failIf (found = none) (.integrity "retention missing")
  let total ← addOr e.total (owed w e.spent k) (.bound "retention charges")
  return {
    total
    event := e.event || (k.ns = .event && k.bytes = event)
    projection := e.projection || (k.ns = .projection && k.bytes = event)
    receipt := e.receipt || (k.ns = .receiptA || k.ns = .receiptB)
    distinct := insert k e.distinct
    spent := insert k e.spent }

/-- The new charges of the cited records, each counted once in a commit. -/
def cost (w : Work) (c : UInt8) (event : Id) (records : List Key) (receipt : Bool) : Result (Nat × Work) := do
  failIf (records = [] ∨ records.length > 24) (.bound "retention evidence")
  let e ← records.foldlM (Evidence.add w c event) ⟨0, false, false, false, ∅, w.spent⟩
  failIf (receipt = true ∧ e.receipt = false) (.bound "receipt evidence required")
  failIf (receipt = false ∧ (e.event = false ∨ e.projection = false)) (.bound "source+projection required")
  return (e.total, { w with spent := e.spent, settled := w.settled.set c true })

def queueTicket (id : Id) (body : Bytes) : Ticket := ⟨1, id, false, false, body, 0, none⟩

def queue (w : Work) (c : UInt8) (sequence : UInt64) (id : Id) (body : Bytes) : Result Work := do
  failIf (body.length > 4096 ∨ Utf8.valid body = false) (.bound "queue body")
  let k ← Key.ordinal c .queue sequence
  let raw := (queueTicket id body).encode
  match ← w.get k with
  | some old => if old = raw then return w else throw .conflict
  | none => w.put k raw frameCredit true

/-- The window has between 1 and 256 ordinals. -/
def Window (start stop : UInt64) : Prop := start < stop ∧ stop.toNat - start.toNat ≤ 256
  deriving Decidable

/-- Offer the ordinal `start + i`, unless a frame is pending there. -/
def offer (w : Work) (c : UInt8) (g : Grant) (i : Nat) : Result Grant := do
  let n := UInt64.ofNat (g.start.toNat + i)
  let k ← Key.ordinal c .pending n
  match ← w.get k with
  | some _ => return g
  | none => do
    let b ← g.bit n
    return g.add b

def grant (w : Work) (c : UInt8) (id : Id) (start stop : UInt64) : Result Work := do
  failIf (c > 1 ∨ ¬ Window start stop) (.bound "grant window")
  let l := w.root.ledger.get c
  match l.grant with
  | some old =>
    if old.id = id ∧ old.start = start ∧ old.stop = stop then return w else throw .conflict
  | none => do
    let g ← (List.range (stop.toNat - start.toNat)).foldlM (offer w c) ⟨id, start, stop, 0⟩
    let free ← subOr l.repairFree (g.count * frameCredit) .quota
    return setLedger w c { l with repairFree := free, grant := some g }

def cancelGrant (w : Work) (c : UInt8) (id : Id) : Result Work := do
  failIf (c > 1) (.bound "context")
  let l := w.root.ledger.get c
  let g ← okOr l.grant .conflict
  failIf (g.id ≠ id) .conflict
  let free ← addOr l.repairFree (g.count * frameCredit) (.bound "cancel")
  return setLedger w c { l with repairFree := free, grant := none }

def refill (w : Work) (c : UInt8) (bytes : Nat) : Result Work := do
  failIf (c > 1) (.bound "context")
  let l := w.root.ledger.get c
  let free ← addOr l.repairFree bytes (.bound "refill")
  return setLedger w c { l with repairFree := free }

def pendingTicket (event : Id) (body : Bytes) (head : Bool) (grant : Option Id) : Ticket :=
  ⟨2, event, grant.isSome, head, body, 0, none⟩

/-- Enter a frame in the counters: the head slot or one of sixty-four ordinary ones. -/
def enter (l : Ledger) (ordinal : UInt64) (head : Bool) : Result Ledger :=
  if head then do
    failIf (l.head ≠ none) .quota
    return { l with head := some ordinal }
  else do
    let pending ← addOr l.pending 1 (.bound "pending count")
    failIf (pending > 64) .quota
    return { l with pending }

/-- Take the frame's credit from the grant it names. -/
def draw (l : Ledger) (ordinal : UInt64) (grant : Option Id) : Result Ledger :=
  match grant with
  | none => return l
  | some id => do
    let g ← okOr l.grant .conflict
    failIf (g.id ≠ id) .conflict
    let b ← g.bit ordinal
    failIf (g.available.getLsbD b = false) .conflict
    let outstanding ← addOr l.outstanding frameCredit (.bound "repair outstanding")
    return { l with grant := some (g.take b), outstanding }

def pending (w : Work) (c : UInt8) (ordinal : UInt64) (event : Id) (body : Bytes) (head : Bool)
    (grant : Option Id) : Result Work := do
  failIf (c > 1 ∨ body.length > 16 * 1024 ∨ head ∧ grant = none) (.bound "pending")
  let k ← Key.ordinal c .pending ordinal
  let raw := (pendingTicket event body head grant).encode
  match ← w.get k with
  | some old => do
    let previous ← Ticket.decode old
    if previous.stage = 2 ∧ previous.id = event ∧ previous.body = body then return w
    else throw .conflict
  | none => do
    let l ← enter (w.root.ledger.get c) ordinal head
    let l ← draw l ordinal grant
    let reserved ← subOr (frameCredit + tempCredit) (charge raw) (.bound "temporary charge")
    (setLedger w c l).put k raw reserved true

/-- Pay once for the two snapshots a capture cites. -/
def payAuth (w : Work) (c : UInt8) (paid : Nat) (id : Id) : Result (Nat × Work) := do
  let auth ← Key.hash c .auth id
  let found ← w.get auth
  failIf (found = none) (.integrity "admission snapshot missing")
  let paid ← addOr paid (owed w w.spent auth) (.bound "capture charge")
  return (paid, { w with spent := insert auth w.spent })

def capturePending (w : Work) (c : UInt8) (ordinal : UInt64) (event original admission : Id) : Result Work := do
  let k ← Key.ordinal c .pending ordinal
  let t ← ticket w k 2 event
  match t.captures with
  | some old => if old = (original, admission) then return w else throw .conflict
  | none => do
    let (paid, w) ← payAuth w c 0 original
    let (paid, w) ← payAuth w c paid admission
    let raw := { t with captures := some (original, admission), admissionPaid := paid }.encode
    failIf (2 ^ 64 ≤ charge raw + paid ∨ charge raw + paid > tempCredit) (.bound "full pending slot")
    let leaf ← okOr (w.root.records[k.place]?) (.integrity "pending slot")
    let consumed ← addOr paid (charge raw - charge t.encode) (.bound "pending capture cost")
    let reserved ← subOr leaf.reserved consumed .quota
    ({ w with settled := w.settled.set c true }).put k raw reserved true

def undeliveredTicket (event : Id) (records : List Key) : Ticket :=
  ⟨3, event, false, false, Postcard.keys records, 0, none⟩

def materialize (w : Work) (c : UInt8) (queue : UInt64) (request : Id) (ordinal : UInt64)
    (event : Id) (records : List Key) : Result Work := do
  let old ← Key.ordinal c .queue queue
  let queued ← ticket w old 1 request
  let found ← w.get (← Key.hash c .projection event)
  let bytes ← okOr found (.integrity "materialized projection missing")
  let projection ← ProjectionValue.decode bytes
  failIf (projection.text.bytes ≠ queued.body) .conflict
  let (cost, w) ← cost w c event records false
  let raw := (undeliveredTicket event records).encode
  let rest ← subOr frameCredit cost .quota
  let reserved ← subOr rest (charge raw) .quota
  failIf (reserved < minDebt) .quota
  let next ← Key.ordinal c .undelivered ordinal
  let found ← w.get next
  failIf (found ≠ none) .conflict
  let w ← w.put next raw reserved true
  w.remove old

/-- A receipt record of this ordinal. -/
def receiptAt (ordinal : UInt64) (k : Key) : Bool :=
  (k.ns = .receiptA || k.ns = .receiptB) && k.ordinalValue.toOption = some ordinal

def admissionValue (captures : Id × Id) : Bytes := 5 :: (captures.1.bytes ++ captures.2.bytes)

/-- Keep the captured credentials of a frame as its admission record. -/
def admitCapture (w : Work) (c : UInt8) (event : Id) (captures : Option (Id × Id)) (records : List Key) :
    Result (Work × List Key) :=
  match captures with
  | none => return (w, records)
  | some captures => do
    let k ← Key.hash c .admission event
    let w ← w.put k (admissionValue captures) 0 false
    return (w, if k ∈ records then records else records ++ [k])

/-- Take a settled frame out of the counters. -/
def leave (l : Ledger) (ordinal : UInt64) (head : Bool) : Result Ledger :=
  if head then do
    failIf (l.head ≠ some ordinal) (.integrity "head ownership")
    return { l with head := none }
  else do
    let pending ← subOr l.pending 1 (.integrity "pending underflow")
    return { l with pending }

/-- What a repaired frame did not spend goes back to the free credit. -/
def giveBack (l : Ledger) (repair : Bool) (spent : Nat) : Result Ledger :=
  if repair then do
    let outstanding ← subOr l.outstanding frameCredit (.integrity "outstanding underflow")
    let repairFree ← addOr l.repairFree (frameCredit - spent) (.bound "repair remainder")
    return { l with outstanding, repairFree }
  else return l

def readable (w : Work) (c : UInt8) (ordinal : UInt64) (event : Id) (records : List Key) : Result Work := do
  let old ← Key.ordinal c .pending ordinal
  let t ← ticket w old 2 event
  failIf (records.any (fun k => k.context = c && receiptAt ordinal k) = false) (.bound "readable receipt ordinal")
  let found ← w.get (← Key.hash c .event event)
  failIf (found ≠ some t.body) .conflict
  let (w, records) ← admitCapture w c event t.captures records
  let (cost, w) ← cost w c event records false
  let spent ← addOr cost t.admissionPaid (.bound "readable retained charge")
  failIf (spent > frameCredit) .quota
  let l ← leave (w.root.ledger.get c) ordinal t.head
  let l ← giveBack l t.repair spent
  (setLedger w c l).remove old

def acknowledge (w : Work) (c : UInt8) (ordinal : UInt64) (event : Id) (records : List Key) : Result Work := do
  let old ← Key.ordinal c .undelivered ordinal
  let _ ← ticket w old 3 event
  failIf (records.any (receiptAt ordinal) = false) (.bound "receipt ordinal")
  let (cost, w) ← cost w c event records true
  let leaf ← okOr (w.root.records[old.place]?) (.integrity "debt")
  failIf (cost > leaf.reserved) .quota
  w.remove old

def apply (w : Work) : CreditAction → Result Work
  | .queue c sequence id body => queue w c sequence id body
  | .grant c id start stop => grant w c id start stop
  | .cancelGrant c id => cancelGrant w c id
  | .refill c bytes => refill w c bytes
  | .pending c ordinal event body head grant => pending w c ordinal event body head grant
  | .materialize c queue request ordinal event records =>
    materialize w c queue request ordinal event records
  | .readable c ordinal event records => readable w c ordinal event records
  | .acknowledge c ordinal event records => acknowledge w c ordinal event records
  | .capturePending c ordinal event original admission =>
    capturePending w c ordinal event original admission

end Credits
end Kilogram
