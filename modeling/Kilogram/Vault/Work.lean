import Kilogram.Vault.Ledger
import Kilogram.Lib.Weight

/-!
# The working state of a commit

The authenticated trees are taken here at the level their refinement proof gives them: a finite map from
places to records. A `Work` is the overlay of one commit: the root under change, the charges against
their committed baseline, the records already paid for and the contexts that settled an obligation.
-/

namespace Kilogram
open Except (ok_iff failIf pure_eq_ok okOr)

inductive Layout where
  | component5 | runtime6 | migrated7
  deriving DecidableEq

structure Record where
  value : Bytes
  reserved : Nat
  owner : UInt8

def Record.charge (x : Record) : Nat := Kilogram.charge x.value

structure Root where
  layout : Layout
  (incarnation account claim : Id)
  contexts : Two Id
  generation : UInt64
  (commitId requestDigest : Id)
  records : Std.TreeMap Place Record
  ledger : Two Ledger

namespace Root

/-- The number of records of one tree. -/
def count (r : Root) (s : Nat) : Nat := Maps.weight (fun p _ => if p.tree = s then 1 else 0) r.records

def usedIn (r : Root) (s : Nat) (c : UInt8) : Nat :=
  Maps.weight (fun p x => if p.tree = s ∧ x.owner = c then x.charge else 0) r.records

def reservedIn (r : Root) (s : Nat) (c : UInt8) : Nat :=
  Maps.weight (fun p x => if p.tree = s ∧ x.owner = c then x.reserved else 0) r.records

/-- The charges of all records of an owner, over all trees. -/
def used (r : Root) (c : UInt8) : Nat := Maps.weight (fun _ x => if x.owner = c then x.charge else 0) r.records

def reserved (r : Root) (c : UInt8) : Nat := Maps.weight (fun _ x => if x.owner = c then x.reserved else 0) r.records

def totals (r : Root) : Result (Two Nat × Two Nat) := do
  failIf (2 ^ 64 ≤ r.used 0 ∨ 2 ^ 64 ≤ r.used 1) (.bound "used total")
  failIf (2 ^ 64 ≤ r.reserved 0 ∨ 2 ^ 64 ≤ r.reserved 1) (.bound "reserved total")
  return (⟨r.used 0, r.used 1⟩, ⟨r.reserved 0, r.reserved 1⟩)

/-- Control, current and native records of a context share one budget. -/
def control (r : Root) (c : UInt8) : Nat := r.usedIn (c.toNat * 24 + Namespace.control.code) c +
    r.usedIn (c.toNat * 24 + Namespace.current.code) c +
    r.usedIn (c.toNat * 24 + Namespace.native.code) c

/-- What the later layouts count into the same budget. -/
def runtimeControl (r : Root) (c : UInt8) : Nat :=
  match r.layout with
  | .component5 => 0
  | .runtime6 | .migrated7 =>
    r.usedIn (c.toNat * 24 + 21) c + r.reservedIn (c.toNat * 24 + 21) c + r.usedIn 22 c + r.reservedIn 22 c

def migrationControl (r : Root) (c : UInt8) : Nat :=
  match r.layout with
  | .component5 | .runtime6 => 0
  | .migrated7 =>
    r.reservedIn (c.toNat * 24 + 15) c + if r.count (c.toNat * 24 + 23) = 1 then 4096 + 585 else 0

def checkLayout (r : Root) : Result Unit :=
  match r.layout with
  | .component5 =>
    failIf ([21, 22, 23, 45, 46, 47, 51].any fun s => r.count s ≠ 0) (.integrity "component runtime slots")
  | .runtime6 =>
    failIf (r.count 22 ≠ 1 ∨ r.usedIn 22 1 ≠ 0 ∨ r.reservedIn 22 1 ≠ 0 ∨
      ([17, 18, 19, 23, 41, 42, 43, 46, 47] ++ List.range' 50 14).any fun s => r.count s ≠ 0)
      (.integrity "runtime profile root")
  | .migrated7 =>
    failIf (r.count 22 ≠ 1 ∨ r.usedIn 22 1 ≠ 0 ∨ r.reservedIn 22 1 ≠ 0 ∨
      r.count 51 < 5 ∨ r.usedIn 51 1 ≠ 0 ∨ r.reservedIn 51 1 ≠ 0 ∨
      ([17, 18, 19, 41, 42, 43, 46] ++ List.range' 52 12).any fun s => r.count s ≠ 0)
      (.integrity "migrated root layout")

def checkContext (r : Root) (c : UInt8) (used reserved : Nat) : Result Unit := do
  (r.ledger.get c).check used reserved
  failIf (2 ^ 64 ≤ r.control c) (.bound "control budget")
  failIf (2 ^ 64 ≤ r.control c + r.runtimeControl c) (.bound "runtime control budget")
  failIf (2 ^ 64 ≤ r.control c + r.runtimeControl c + r.migrationControl c) (.bound "migration control budget")
  failIf (r.control c + r.runtimeControl c + r.migrationControl c > 4 * 1024 * 1024) .quota

def check (r : Root) : Result Unit := do
  failIf (r.contexts.zero = r.contexts.one ∨ r.account = 0 ∨ r.claim = 0 ∨ r.generation = 0)
    (.integrity "anchor identity/generation")
  r.checkLayout
  let (used, reserved) ← r.totals
  r.checkContext 0 used.zero reserved.zero
  r.checkContext 1 used.one reserved.one

/-- The record under a key. -/
def find (r : Root) (k : Key) : Result (Option Record) := do
  let s ← k.slot
  return r.records[Place.mk s k.bytes]?

/-- Records of an author tree start with the context of their owner. -/
def authorScope (r : Root) (k : Key) (x : Record) : Prop :=
  k.ns.author = true → x.value.length = 64 ∧ x.value.take 32 = (r.contexts.get x.owner).bytes
  deriving Decidable

def get (r : Root) (k : Key) : Result (Option Bytes) := do
  match ← r.find k with
  | none => return none
  | some x =>
    failIf (¬ r.authorScope k x) (.integrity "author scope")
    return some x.value

theorem find_eq_ok {r : Root} {k : Key} {o : Option Record} (h : r.find k = .ok o) :
    k.context ≤ 1 ∧ r.records[k.place]? = o := by
  simp only [find, ok_iff] at h
  obtain ⟨s, hs, rfl⟩ := h
  obtain ⟨rfl, hc⟩ := Key.slot_eq_ok hs
  exact ⟨hc, rfl⟩

theorem get_eq_some {r : Root} {k : Key} {v : Bytes} (h : r.get k = .ok (some v)) :
    k.context ≤ 1 ∧ ∃ x, r.records[k.place]? = some x ∧ r.authorScope k x ∧ x.value = v := by
  simp only [get, ok_iff] at h
  obtain ⟨o, hfind, h⟩ := h
  obtain ⟨hc, hget⟩ := find_eq_ok hfind
  cases o with
  | none => simp at h
  | some x =>
    simp only [ok_iff, not_not, Option.some.injEq] at h
    obtain ⟨_, hscope, rfl⟩ := h
    exact ⟨hc, x, hget, hscope, rfl⟩

theorem get_eq_none {r : Root} {k : Key} (h : r.get k = .ok none) : k.context ≤ 1 ∧ r.records[k.place]? = none := by
  simp only [get, ok_iff] at h
  obtain ⟨o, hfind, h⟩ := h
  cases o with
  | none => exact find_eq_ok hfind
  | some x =>
    simp only [ok_iff, reduceCtorEq, and_false, exists_const] at h

end Root

/-- The largest value of each namespace. -/
def valueCap : Namespace → Nat
  | .event | .auth => 16 * 1024
  | .projection | .queue => 8 * 1024
  | .native => 128 * 1024
  | .request => 128
  | .receiptA | .receiptB => 1024
  | _ => maxValue

structure Work where
  root : Root
  (baselineCharge newCharge : Std.TreeMap Key Nat)
  spent : Finset Key
  settled : Two Bool
  changed : Bool

namespace Work

def new (root : Root) : Work := ⟨root, ∅, ∅, ∅, ⟨false, false⟩, false⟩
def get (w : Work) (k : Key) : Result (Option Bytes) := w.root.get k

/-- The checks on a value that need no other record. -/
def checkTyped (w : Work) (k : Key) (value : Bytes) : Result Unit := do
  failIf ((k.ns = .migration ∨ k.ns = .legacyBudget) ∧ w.root.layout ≠ .migrated7)
    .runtimeWriterRequired
  failIf (value.length > valueCap k.ns) (.bound "typed value cap")
  failIf (k.ns = .admission ∧ (value.length ≠ 65 ∨ value.head? ≠ some 5)) (.bound "admission value")
  if k.ns = .projection then do
    let _ ← ProjectionValue.decode value
  failIf ((k.ns = .laneA ∨ k.ns = .laneB) ∧ value.length ≠ 32 ∨
    (k.ns = .seenA ∨ k.ns = .seenB) ∧ value.length ≠ 40) (.bound "typed fixed value")

/-- The state after a value is stored: the charge is measured against the committed one. -/
def stored (w : Work) (k : Key) (value : Bytes) (reserved : Nat) : Work :=
  let oldCharge := match w.root.records[k.place]? with
    | some x => x.charge
    | none => 0
  let baseline := w.baselineCharge.getD k oldCharge
  { w with
    root := { w.root with records := w.root.records.insert k.place ⟨value, reserved, k.context⟩ }
    baselineCharge := w.baselineCharge.insert k baseline
    newCharge := w.newCharge.insert k (charge value - baseline)
    changed := true }

def write (w : Work) (k : Key) (value : Bytes) (reserved : Nat) : Result Work := do
  failIf (k.ns.author ∧ (value.length ≠ 64 ∨
    value.take 32 ≠ (w.root.contexts.get k.context).bytes)) (.bound "author context/EventId value")
  return w.stored k value reserved

def put (w : Work) (k : Key) (value : Bytes) (reserved : Nat) (internal : Bool) : Result Work := do
  w.checkTyped k value
  let old ← w.get k
  match old with
  | none => w.write k value reserved
  | some old => do
    let leaf ← okOr (w.root.records[k.place]?) (.integrity "existing leaf")
    failIf (k.ns.global ∧ leaf.owner ≠ k.context) .conflict
    if old = value ∧ leaf.reserved = reserved then return w
    else do
      failIf (internal = false ∧ k.ns.mutable = false) .conflict
      w.write k value reserved

/-- What the author trees accept under `k`. -/
def AuthorForm (w : Work) (k : Key) (value : Bytes) : Prop :=
  k.ns.author = true → value.length = 64 ∧ value.take 32 = (w.root.contexts.get k.context).bytes

/-- The state after the record `x` under `k` is removed. -/
def removed (w : Work) (k : Key) (x : Record) : Work :=
  { w with
    root := { w.root with records := w.root.records.erase k.place }
    baselineCharge := w.baselineCharge.insert k (w.baselineCharge.getD k x.charge)
    newCharge := w.newCharge.insert k 0
    changed := true }

def remove (w : Work) (k : Key) : Result Work := do
  let old ← w.get k
  failIf (old = none) .conflict
  let leaf ← okOr (w.root.records[k.place]?) (.integrity "removed leaf")
  return w.removed k leaf

variable {w : Work} {k : Key}

theorem get_stored (value : Bytes) (reserved : Nat) (p : Place) : (w.stored k value reserved).root.records[p]? =
      if k.place = p then some ⟨value, reserved, k.context⟩ else w.root.records[p]? :=
  Maps.get_insert _ _ _ _

theorem get_stored_of_tree_ne {p : Place} (h : p.tree ≠ k.tree) (value : Bytes) (reserved : Nat) :
    (w.stored k value reserved).root.records[p]? = w.root.records[p]? := by
  rw [get_stored, if_neg]
  rintro rfl
  exact h rfl

theorem get_removed (x : Record) (p : Place) :
    (w.removed k x).root.records[p]? = if k.place = p then none else w.root.records[p]? :=
  Maps.get_erase _ _ _

theorem get_removed_of_tree_ne {p : Place} (h : p.tree ≠ k.tree)
    (x : Record) : (w.removed k x).root.records[p]? = w.root.records[p]? := by
  rw [get_removed, if_neg]
  rintro rfl
  exact h rfl

theorem write_eq_ok {w' : Work} {value : Bytes} {reserved : Nat} (h : w.write k value reserved = .ok w') :
    w' = w.stored k value reserved ∧ w.AuthorForm k value := by
  simp only [write, ok_iff, not_and, not_or, not_not] at h
  obtain ⟨_, hform, rfl⟩ := h
  exact ⟨rfl, hform⟩

/-- What a successful put does: nothing, when the record is there already with this value and
reservation, or it stores the record; an existing record of a shared tree stays with its owner, and
a foreign overwrite needs a mutable namespace. -/
inductive Puts (w : Work) (k : Key) (value : Bytes) (reserved : Nat) (internal : Bool) : Work → Prop
  | same (x : Record) (hx : w.root.records[k.place]? = some x) (hvalue : x.value = value)
      (hreserved : x.reserved = reserved) (howner : k.ns.global = true → x.owner = k.context) :
      Puts w k value reserved internal w
  | fresh (hx : w.root.records[k.place]? = none) (hform : w.AuthorForm k value) :
      Puts w k value reserved internal (w.stored k value reserved)
  | replaced (x : Record) (hx : w.root.records[k.place]? = some x)
      (howner : k.ns.global = true → x.owner = k.context)
      (hmutable : internal = true ∨ k.ns.mutable = true) (hform : w.AuthorForm k value) :
      Puts w k value reserved internal (w.stored k value reserved)

theorem puts_of_put {w' : Work} {value : Bytes} {reserved : Nat} {internal : Bool}
    (h : w.put k value reserved internal = .ok w') :
    k.context ≤ 1 ∧ w.checkTyped k value = .ok () ∧ w.Puts k value reserved internal w' := by
  simp only [put, ok_iff, get] at h
  obtain ⟨_, htyped, old, hold, h⟩ := h
  cases old with
  | none =>
    obtain ⟨hc, hnone⟩ := Root.get_eq_none hold
    obtain ⟨rfl, hform⟩ := write_eq_ok h
    exact ⟨hc, htyped, .fresh hnone hform⟩
  | some old =>
    obtain ⟨hc, x, hx, _, rfl⟩ := Root.get_eq_some hold
    simp only [hx, okOr, ok_iff, Except.ok.injEq] at h
    obtain ⟨_, rfl, _, howner, h⟩ := h
    have howner' : k.ns.global = true → x.owner = k.context := by
      simpa only [not_and, not_not] using howner
    refine ⟨hc, htyped, ?_⟩
    split at h
    · next heq =>
      obtain rfl := pure_eq_ok.mp h
      exact .same x hx heq.1 heq.2 howner'
    · simp only [ok_iff] at h
      obtain ⟨_, hmut, h⟩ := h
      obtain ⟨rfl, hform⟩ := write_eq_ok h
      refine .replaced x hx howner' ?_ hform
      rcases internal with _ | _
      · exact Or.inr (by simpa using hmut)
      · exact Or.inl rfl

theorem remove_eq_ok {w' : Work} (h : w.remove k = .ok w') :
    k.context ≤ 1 ∧ ∃ x, w.root.records[k.place]? = some x ∧ w' = w.removed k x := by
  simp only [remove, ok_iff, get] at h
  obtain ⟨old, hold, _, hsome, x, hx, rfl⟩ := h
  obtain ⟨v, rfl⟩ := Option.ne_none_iff_exists'.mp hsome
  exact ⟨(Root.get_eq_some hold).1, x, hx, rfl⟩

end Work
end Kilogram
