import Kilogram.Vault.Types
import Kilogram.Lib.Utf8
import Kilogram.Lib.Maps

/-!
# Typed keys

A record lives in one of sixty-four trees. A typed key names a context, a namespace and thirty-two
bytes; `Key.slot` checks its form and gives the number of its tree.
-/

namespace Kilogram
open Except (ok_iff failIf)

inductive Namespace where
  | event | laneA | laneB | projection | request | queue | undelivered | receiptA | receiptB
  | pending | seenA | seenB | auth | control | current | native | credit | author0 | author1
  | author2 | admission | runtime | runtimeProfile | migration | legacyBudget
  deriving DecidableEq

namespace Namespace

/-- The discriminant stored in keys; the order of namespaces is the order of discriminants. -/
def code : Namespace → Nat
  | event => 0 | laneA => 1 | laneB => 2 | projection => 3 | request => 4 | queue => 5
  | undelivered => 6 | receiptA => 7 | receiptB => 8 | pending => 9 | seenA => 10 | seenB => 11
  | auth => 12 | control => 13 | current => 14 | native => 15 | credit => 16 | author0 => 17
  | author1 => 18 | author2 => 19 | admission => 20 | runtime => 21 | runtimeProfile => 22
  | migration => 23 | legacyBudget => 24

def ofCode : Nat → Namespace
  | 0 => event | 1 => laneA | 2 => laneB | 3 => projection | 4 => request | 5 => queue
  | 6 => undelivered | 7 => receiptA | 8 => receiptB | 9 => pending | 10 => seenA | 11 => seenB
  | 12 => auth | 13 => control | 14 => current | 15 => native | 16 => credit | 17 => author0
  | 18 => author1 | 19 => author2 | 20 => admission | 21 => runtime | 22 => runtimeProfile
  | 23 => migration | _ => legacyBudget

@[simp] theorem ofCode_code (ns : Namespace) : ofCode ns.code = ns := by cases ns <;> rfl
theorem code_lt (ns : Namespace) : ns.code < 25 := by cases ns <;> decide

theorem code_inj {a b : Namespace} (h : a.code = b.code) : a = b := by
  rw [← ofCode_code a, h, ofCode_code]

def mutable : Namespace → Bool
  | request | current | native | runtime | runtimeProfile | migration | legacyBudget => true
  | _ => false

def numeric : Namespace → Bool
  | laneA | laneB | queue | undelivered | receiptA | receiptB | pending | author0 | author1
  | author2 => true
  | _ => false

def author : Namespace → Bool
  | author0 | author1 | author2 => true
  | _ => false

def global (ns : Namespace) : Bool := ns.author || ns = migration

/-- The place of a namespace among the trees of its context. -/
def offset (ns : Namespace) : Nat := if ns = legacyBudget then 23 else ns.code

theorem offset_inj {a b : Namespace} (ha : a.global = false) (hb : b.global = false)
    (h : a.offset = b.offset) : a = b := by
  have hleft : ∀ ns : Namespace, ns.global = false →
      (if ns.offset = 23 then legacyBudget else ofCode ns.offset) = ns := by
    intro ns hns
    cases ns <;> first | exact absurd hns (by decide) | rfl
  rw [← hleft a ha, h, hleft b hb]

theorem offset_lt {ns : Namespace} (h : ns.global = false) : ns.offset < 24 := by
  cases ns <;> first | exact absurd h (by decide) | decide

/-- Namespaces whose records only the credit transitions write. -/
def managed : Namespace → Bool
  | credit | queue | pending | undelivered => true
  | _ => false

end Namespace

abbrev RequestId := BitVec 128

structure Key where
  context : UInt8
  ns : Namespace
  bytes : Id
  deriving DecidableEq

/-- The number of an ordinal key: eight bytes of ordinal, twenty-four zero bytes. -/
def ordinalBytes (ordinal : UInt64) : Id := BitVec.ofNat 256 (ordinal.toNat * 2 ^ 192)

/-- A request identifier in front of sixteen zero bytes: the key of a request and the name its
queue ticket carries. -/
def requestHandle (request : RequestId) : Id := BitVec.ofNat 256 (request.toNat * 2 ^ 128)

/-- The last twenty-four bytes are zero. -/
def OrdinalForm (bytes : Id) : Prop := bytes.toNat % 2 ^ 192 = 0
  deriving Decidable

/-- The last sixteen bytes are zero. -/
def RequestForm (bytes : Id) : Prop := bytes.toNat % 2 ^ 128 = 0
  deriving Decidable

namespace Key

def hash (context : UInt8) (ns : Namespace) (bytes : Id) : Result Key := do
  failIf (context > 1 ∨ ns.numeric) (.bound "hash key")
  return ⟨context, ns, bytes⟩

def request (context : UInt8) (id : RequestId) : Result Key := hash context .request (requestHandle id)

def ordinal (context : UInt8) (ns : Namespace) (ordinal : UInt64) : Result Key := do
  failIf (context > 1 ∨ !ns.numeric) (.bound "ordinal key")
  return ⟨context, ns, ordinalBytes ordinal⟩

def ordinalValue (k : Key) : Result UInt64 := do
  failIf (!k.ns.numeric ∨ ¬ OrdinalForm k.bytes) (.bound "noncanonical ordinal")
  return UInt64.ofNat (k.bytes.toNat / 2 ^ 192)

/-- The tree of a well-formed key. -/
def tree (k : Key) : Nat :=
  if k.ns = .migration then 51
  else if k.ns.author then 48 + k.ns.code - 17
  else k.context.toNat * 24 + k.ns.offset

def checkForm (k : Key) : Result Unit := do
  failIf (k.context > 1) (.bound "context")
  if k.ns = .migration then
    failIf (k.context ≠ 0) (.bound "global migration owner")
  else if k.ns = .legacyBudget then
    failIf (k.bytes ≠ 0) (.bound "legacy budget singleton")
  else do
    failIf (k.ns = .runtimeProfile ∧ k.context ≠ 0) (.bound "runtime profile slot")
    failIf (k.ns.numeric ∧ ¬ OrdinalForm k.bytes) (.bound "noncanonical ordinal")
    failIf (k.ns = .native ∧ k.bytes ≠ 0) (.bound "single native slot")
    failIf (k.ns = .request ∧ ¬ RequestForm k.bytes) (.bound "request128")

def slot (k : Key) : Result Nat := do
  k.checkForm
  return k.tree

end Key

/-- Where a record is stored: a tree and thirty-two bytes. -/
structure Place where
  tree : Nat
  bytes : Id
  deriving DecidableEq

namespace Place

def code (p : Place) : Nat := p.tree * 2 ^ 256 + p.bytes.toNat

theorem code_inj {p q : Place} (h : p.code = q.code) : p = q := by
  obtain ⟨s, x⟩ := p
  obtain ⟨t, y⟩ := q
  have hx := x.isLt
  have hy := y.isLt
  simp only [code] at h
  have hst : s = t := by omega
  have hxy : x.toNat = y.toNat := by omega
  rw [hst, BitVec.eq_of_toNat_eq hxy]

instance : Ord Place := ⟨compareOn code⟩
instance : Std.TransOrd Place := inferInstanceAs (Std.TransCmp (compareOn code))
instance : Std.LawfulEqOrd Place := Maps.lawfulEqCmp_compareOn fun _ _ => code_inj

end Place

namespace Key

def place (k : Key) : Place := ⟨k.tree, k.bytes⟩

/-- The order of keys: by context, namespace and bytes. -/
def code (k : Key) : Nat := (k.context.toNat * 32 + k.ns.code) * 2 ^ 256 + k.bytes.toNat

variable {j k : Key}

theorem code_inj (h : j.code = k.code) : j = k := by
  obtain ⟨c, m, x⟩ := j
  obtain ⟨d, n, y⟩ := k
  have hx := x.isLt
  have hy := y.isLt
  have hm := m.code_lt
  have hn := n.code_lt
  simp only [code] at h
  have hcd : c.toNat = d.toNat := by omega
  have hmn : m.code = n.code := by omega
  have hxy : x.toNat = y.toNat := by omega
  rw [UInt8.toNat_inj.mp hcd, Namespace.code_inj hmn, BitVec.eq_of_toNat_eq hxy]

instance : Ord Key := ⟨compareOn code⟩
instance : Std.TransOrd Key := inferInstanceAs (Std.TransCmp (compareOn code))
instance : Std.LawfulEqOrd Key := Maps.lawfulEqCmp_compareOn fun _ _ => code_inj

theorem hash_eq_ok {c : UInt8} {ns : Namespace} {bytes : Id} :
    hash c ns bytes = .ok k ↔ c ≤ 1 ∧ ns.numeric = false ∧ k = ⟨c, ns, bytes⟩ := by
  simp only [hash, ok_iff, not_or]
  constructor
  · rintro ⟨_, ⟨hc, hns⟩, rfl⟩
    exact ⟨UInt8.not_lt.mp hc, by simpa using hns, rfl⟩
  · rintro ⟨hc, hns, rfl⟩
    exact ⟨(), ⟨UInt8.not_lt.mpr hc, by simpa using hns⟩, rfl⟩

theorem ordinal_eq_ok {c : UInt8} {ns : Namespace} {n : UInt64} :
    ordinal c ns n = .ok k ↔ c ≤ 1 ∧ ns.numeric = true ∧ k = ⟨c, ns, ordinalBytes n⟩ := by
  simp only [ordinal, ok_iff, not_or]
  constructor
  · rintro ⟨_, ⟨hc, hns⟩, rfl⟩
    exact ⟨UInt8.not_lt.mp hc, by simpa using hns, rfl⟩
  · rintro ⟨hc, hns, rfl⟩
    exact ⟨(), ⟨UInt8.not_lt.mpr hc, by simpa using hns⟩, rfl⟩

theorem toNat_ordinalBytes (n : UInt64) : (ordinalBytes n).toNat = n.toNat * 2 ^ 192 := by
  have hn := n.toNat_lt
  rw [ordinalBytes, BitVec.toNat_ofNat, Nat.mod_eq_of_lt (by omega)]

theorem ordinalBytes_inj {m n : UInt64} (h : ordinalBytes m = ordinalBytes n) : m = n := by
  have heq := congrArg BitVec.toNat h
  rw [toNat_ordinalBytes, toNat_ordinalBytes] at heq
  exact UInt64.toNat_inj.mp (Nat.eq_of_mul_eq_mul_right (by decide) heq)

/-- A key with a slot names one of the two contexts, and its slot is its tree. -/
theorem slot_eq_ok {s : Nat} (h : k.slot = .ok s) : s = k.tree ∧ k.context ≤ 1 := by
  simp only [slot, ok_iff] at h
  obtain ⟨_, hform, rfl⟩ := h
  simp only [checkForm, ok_iff] at hform
  obtain ⟨_, hc, _⟩ := hform
  exact ⟨rfl, UInt8.not_lt.mp hc⟩

theorem tree_of_local (h : k.ns.global = false) : k.tree = k.context.toNat * 24 + k.ns.offset := by
  simp only [Namespace.global, Bool.or_eq_false_iff, decide_eq_false_iff_not] at h
  rw [tree, if_neg h.2, h.1]
  rfl

theorem le_tree_of_global (h : k.ns.global = true) : 48 ≤ k.tree ∧ k.tree < 52 := by
  obtain ⟨c, ns, bytes⟩ := k
  cases ns <;> simp_all [tree, Namespace.global, Namespace.author, Namespace.code]

/-- The trees of the contexts come before the shared ones. -/
theorem tree_lt_of_local (hc : k.context ≤ 1) (h : k.ns.global = false) : k.tree < 48 := by
  have hc : k.context.toNat ≤ 1 := hc
  have hoff := Namespace.offset_lt h
  rw [tree_of_local h]
  omega

/-- Among the trees of the contexts, the tree tells the context and the namespace. -/
theorem eq_of_tree_eq (hj : j.context ≤ 1)
    (hns : j.ns.global = false) (h : j.tree = k.tree) : j.context = k.context ∧ j.ns = k.ns := by
  have hlt := tree_lt_of_local hj hns
  have hgk : k.ns.global = false := by
    rcases hg : k.ns.global with _ | _
    · rfl
    · have := (le_tree_of_global hg).1
      omega
  rw [tree_of_local hns, tree_of_local hgk] at h
  have hoffj := Namespace.offset_lt hns
  have hoffk := Namespace.offset_lt hgk
  have hc : j.context.toNat = k.context.toNat := by omega
  exact ⟨UInt8.toNat_inj.mp hc, Namespace.offset_inj hns hgk (by omega)⟩

theorem eq_of_place_eq (hj : j.context ≤ 1) (hns : j.ns.global = false) (h : j.place = k.place) : j = k := by
  obtain ⟨hc, hn⟩ := eq_of_tree_eq hj hns (congrArg Place.tree h)
  have hb : j.bytes = k.bytes := congrArg Place.bytes h
  obtain ⟨c, m, x⟩ := j
  obtain ⟨d, n, y⟩ := k
  simp_all

theorem ns_eq_of_global (hj : j.ns.global = true) (hk : k.ns.global = true) (h : j.tree = k.tree) : j.ns = k.ns := by
  obtain ⟨c, m, x⟩ := j
  obtain ⟨d, n, y⟩ := k
  have hcases : ∀ ns : Namespace, ns.global = true →
      ns = .author0 ∨ ns = .author1 ∨ ns = .author2 ∨ ns = .migration := by
    intro ns
    cases ns <;> decide
  rcases hcases m hj with rfl | rfl | rfl | rfl <;> rcases hcases n hk with rfl | rfl | rfl | rfl <;>
    first | rfl | exact absurd h (by simp [tree, Namespace.author, Namespace.code])

/-- Two keys of one context with the same place are the same key, in the shared trees too. -/
theorem eq_of_place_context (hj : j.context ≤ 1) (hc : j.context = k.context) (h : j.place = k.place) : j = k := by
  rcases hgj : j.ns.global with _ | _
  · exact eq_of_place_eq hj hgj h
  · rcases hgk : k.ns.global with _ | _
    · exact (eq_of_place_eq (hc ▸ hj) hgk h.symm).symm
    · have hn := ns_eq_of_global hgj hgk (congrArg Place.tree h)
      have hb : j.bytes = k.bytes := congrArg Place.bytes h
      obtain ⟨c, m, x⟩ := j
      obtain ⟨d, n, y⟩ := k
      simp_all

end Key
end Kilogram
