import Kilogram.Lib.Bytes
import Kilogram.Lib.Except

/-!
# Types of the indexed dialog vault

Identifiers, errors, typed keys and the reader of fixed-width records. An identifier is thirty-two
bytes; it is kept as the big-endian number of those bytes, so that its order is the byte order.
-/

namespace Kilogram

abbrev Id := BitVec 256
instance Id.decidableMem (a : Id) (l : List Id) : Decidable (a ∈ l) := List.instDecidableMemOfLawfulBEq a l

inductive Error where
  | integrity (why : String)
  | bound (why : String)
  | staleGeneration
  | conflict
  | quota
  | historyUnavailable
  | existingStateRequiresMigration
  | runtimeWriterRequired
  deriving DecidableEq

abbrev Result := Except Error

def maxValue : Nat := 512 * 1024
def maxPlan : Nat := 16 * 1024 * 1024
def frameCredit : Nat := 128 * 1024
def tempCredit : Nat := 64 * 1024
def repairPool : Nat := 64 * 1024 * 1024
def nodeCap : Nat := 256

/-- An array of two, indexed by a context or a role. Callers check the index first; beyond the
array the source would stop, here the second entry answers. -/
structure Two (α : Type) where
  (zero one : α)
  deriving DecidableEq

namespace Two
variable {α : Type}

def get (a : Two α) (c : UInt8) : α := if c = 0 then a.zero else a.one

def set (a : Two α) (c : UInt8) (v : α) : Two α :=
  if c = 0 then { a with zero := v } else { a with one := v }

@[simp] theorem get_set_self (a : Two α) (c : UInt8) (v : α) : (a.set c v).get c = v := by
  unfold set get
  split <;> rfl

theorem eq_zero_or_one {c : UInt8} (hc : c ≤ 1) : c = 0 ∨ c = 1 := by
  have : c.toNat ≤ 1 := hc
  rcases Nat.le_one_iff_eq_zero_or_eq_one.mp this with h | h
  · exact Or.inl (UInt8.toNat_inj.mp h)
  · exact Or.inr (UInt8.toNat_inj.mp h)

theorem get_set_of_ne (a : Two α) {c d : UInt8} (v : α) (hc : c ≤ 1) (hd : d ≤ 1) (h : d ≠ c) :
    (a.set c v).get d = a.get d := by
  rcases eq_zero_or_one hc with rfl | rfl <;> rcases eq_zero_or_one hd with rfl | rfl
  · exact absurd rfl h
  · rfl
  · rfl
  · exact absurd rfl h

end Two

def checkedAdd (a b : UInt64) : Option UInt64 :=
  if a.toNat + b.toNat < 2 ^ 64 then some (a + b) else none

theorem checkedAdd_eq_some {a b c : UInt64} : checkedAdd a b = some c ↔ c.toNat = a.toNat + b.toNat := by
  unfold checkedAdd
  have hc := c.toNat_lt
  split
  · next h =>
    rw [Option.some.injEq]
    constructor
    · rintro rfl
      rw [UInt64.toNat_add, Nat.mod_eq_of_lt h]
    · intro he
      apply UInt64.toNat_inj.mp
      rw [UInt64.toNat_add, Nat.mod_eq_of_lt h, he]
  · next h =>
    constructor
    · exact fun he => absurd he (by simp)
    · intro he
      exact absurd (he ▸ hc) h

/-- Checked sums and differences of sixty-four-bit amounts, kept as numbers. -/
def addOr (a b : Nat) (e : Error) : Result Nat :=
  if a + b < 2 ^ 64 then .ok (a + b) else .error e

def subOr (a b : Nat) (e : Error) : Result Nat :=
  if b ≤ a then .ok (a - b) else .error e

theorem addOr_eq_ok {a b n : Nat} {e : Error} : addOr a b e = .ok n ↔ a + b < 2 ^ 64 ∧ n = a + b := by
  unfold addOr
  split <;> simp_all [eq_comm]

theorem addOr_of_lt {a b : Nat} (h : a + b < 2 ^ 64) (e : Error) : addOr a b e = .ok (a + b) :=
  if_pos h

theorem subOr_eq_ok {a b n : Nat} {e : Error} : subOr a b e = .ok n ↔ b ≤ a ∧ n = a - b := by
  unfold subOr
  split <;> simp_all [eq_comm]

def Id.bytes (x : Id) : Bytes := Bytes.ofNat 32 x.toNat
def Id.ofBytes (bs : Bytes) : Id := BitVec.ofNat 256 (Bytes.toNat bs)
def u64Bytes (x : UInt64) : Bytes := Bytes.ofNat 8 x.toNat
def ascii (s : String) : Bytes := s.toList.map fun c => UInt8.ofNat c.toNat
@[simp] theorem Id.length_bytes (x : Id) : x.bytes.length = 32 := Bytes.length_ofNat 32 _
@[simp] theorem length_u64Bytes (x : UInt64) : (u64Bytes x).length = 8 := Bytes.length_ofNat 8 _
@[simp] theorem Id.ofBytes_bytes (x : Id) : Id.ofBytes x.bytes = x := @Bytes.bitVec_ofNat 32 x
theorem Id.bytes_ofBytes {bs : Bytes} (h : bs.length = 32) : (Id.ofBytes bs).bytes = bs := Bytes.ofNat_bitVec h

theorem toNat_u64Bytes (x : UInt64) : Bytes.toNat (u64Bytes x) = x.toNat := by
  apply Bytes.toNat_ofNat_of_lt
  have := x.toNat_lt
  norm_num at this ⊢
  exact this

theorem u64Bytes_ofNat {n : Nat} (h : n < 2 ^ 64) : u64Bytes (UInt64.ofNat n) = Bytes.ofNat 8 n := by
  rw [u64Bytes, UInt64.toNat_ofNat', Nat.mod_eq_of_lt h]

/-- A reader consumes bytes from the front. -/
abbrev Reader (α : Type) := StateT Bytes (Except Error) α

namespace Reader
variable {α β : Type}

def take (count : Nat) : Reader Bytes := fun raw =>
  if count ≤ raw.length then .ok (raw.take count, raw.drop count)
  else .error (.integrity "truncated")

def byte : Reader UInt8 := fun raw =>
  match raw with
  | b :: rest => .ok (b, rest)
  | [] => .error (.integrity "truncated")

def id : Reader Id := do
  let bs ← take 32
  return Id.ofBytes bs

def u64 : Reader UInt64 := do
  let bs ← take 8
  return UInt64.ofNat (Bytes.toNat bs)

def u16 : Reader Nat := do
  let bs ← take 2
  return Bytes.toNat bs

def fail (e : Error) : Reader α := fun _ => .error e

def failIf (c : Prop) [Decidable c] (e : Error) : Reader Unit := fun raw =>
  if c then .error e else .ok ((), raw)

def okOr (o : Option α) (e : Error) : Reader α := fun raw => do
  let a ← Except.okOr o e
  return (a, raw)

def atEnd : Reader Unit := fun raw =>
  if raw = [] then .ok ((), raw) else .error (.integrity "trailing bytes")

/-- Run a reader on a whole record. -/
def decode (r : Reader α) (raw : Bytes) : Result α := do
  let (a, _) ← r raw
  return a

@[simp] theorem bind_run (r : Reader α) (f : α → Reader β) (raw : Bytes) :
    (r >>= f) raw = (r raw >>= fun p => f p.1 p.2) := rfl

variable {r : Reader α} {raw rest : Bytes}

theorem bind_eq_ok {f : α → Reader β} {b : β} :
    (r >>= f) raw = .ok (b, rest) ↔ ∃ a mid, r raw = .ok (a, mid) ∧ f a mid = .ok (b, rest) := by
  rw [bind_run, Except.bind_eq_ok]
  simp only [Prod.exists]

theorem take_eq_ok {count : Nat} {bs : Bytes} :
    take count raw = .ok (bs, rest) ↔ bs.length = count ∧ bs ++ rest = raw := by
  unfold take
  constructor
  · intro h
    split at h
    · next hle =>
      cases h
      exact ⟨List.length_take_of_le hle, List.take_append_drop count raw⟩
    · cases h
  · rintro ⟨rfl, rfl⟩
    simp

theorem field_eq_ok {count : Nat} {f : Bytes → α} {g : α → Bytes} {a : α}
    (hfg : ∀ bs, bs.length = count → g (f bs) = bs) (hgf : f (g a) = a) (hg : (g a).length = count) :
    (take count >>= fun bs => pure (f bs) : Reader α) raw = .ok (a, rest) ↔ g a ++ rest = raw := by
  rw [bind_eq_ok]
  constructor
  · rintro ⟨bs, mid, hbs, h⟩
    obtain ⟨hlen, rfl⟩ := take_eq_ok.mp hbs
    cases h
    rw [hfg bs hlen]
  · rintro rfl
    exact ⟨g a, rest, take_eq_ok.mpr ⟨hg, rfl⟩, by rw [hgf]; rfl⟩

theorem id_eq_ok {x : Id} : id raw = .ok (x, rest) ↔ x.bytes ++ rest = raw :=
  field_eq_ok (fun _ => Id.bytes_ofBytes) x.ofBytes_bytes x.length_bytes

theorem u64_eq_ok {x : UInt64} : u64 raw = .ok (x, rest) ↔ u64Bytes x ++ rest = raw := by
  refine field_eq_ok (fun bs h => ?_) (by rw [toNat_u64Bytes, UInt64.ofNat_toNat]) (length_u64Bytes x)
  have hlt := bs.toNat_lt
  rw [h] at hlt
  rw [u64Bytes_ofNat (by norm_num at hlt ⊢; exact hlt), ← h, bs.ofNat_toNat]

theorem u16_eq_ok {n : Nat} : u16 raw = .ok (n, rest) ↔ n < 65536 ∧ Bytes.ofNat 2 n ++ rest = raw := by
  constructor
  · intro h
    obtain ⟨bs, mid, hbs, hn⟩ := bind_eq_ok.mp h
    obtain ⟨hlen, rfl⟩ := take_eq_ok.mp hbs
    cases hn
    have hlt := bs.toNat_lt
    rw [hlen] at hlt
    exact ⟨hlt, by rw [← hlen, bs.ofNat_toNat]⟩
  · rintro ⟨hlt, h⟩
    exact (field_eq_ok (fun bs h => by rw [← h, bs.ofNat_toNat]) (Bytes.toNat_ofNat_of_lt hlt)
      (Bytes.length_ofNat 2 n)).mpr h

/-- What a successful run says of the bytes at each reader, for the simplifier. -/
theorem ok_iff : (∀ {α β : Type} {r : Reader α} {f : α → Reader β} {b : β} {raw rest : Bytes},
      (r >>= f) raw = .ok (b, rest) ↔ ∃ a mid, r raw = .ok (a, mid) ∧ f a mid = .ok (b, rest)) ∧
    (∀ {α : Type} {a b : α} {raw rest : Bytes}, (pure a : Reader α) raw = .ok (b, rest) ↔ a = b ∧ raw = rest) ∧
    (∀ {n : Nat} {bs raw rest : Bytes}, take n raw = .ok (bs, rest) ↔ bs.length = n ∧ bs ++ rest = raw) ∧
    (∀ {b : UInt8} {raw rest : Bytes}, byte raw = .ok (b, rest) ↔ b :: rest = raw) ∧
    (∀ {x : Id} {raw rest : Bytes}, id raw = .ok (x, rest) ↔ x.bytes ++ rest = raw) ∧
    (∀ {x : UInt64} {raw rest : Bytes}, u64 raw = .ok (x, rest) ↔ u64Bytes x ++ rest = raw) ∧
    (∀ {n : Nat} {raw rest : Bytes}, u16 raw = .ok (n, rest) ↔ n < 65536 ∧ Bytes.ofNat 2 n ++ rest = raw) ∧
    (∀ {c : Prop} [Decidable c] {e : Error} {u : Unit} {raw rest : Bytes},
      failIf c e raw = .ok (u, rest) ↔ ¬ c ∧ raw = rest) ∧
    (∀ {α : Type} {o : Option α} {e : Error} {a : α} {raw rest : Bytes},
      okOr o e raw = .ok (a, rest) ↔ o = some a ∧ raw = rest) ∧
    (∀ {α : Type} {e : Error} {a : α} {raw rest : Bytes}, (fail e : Reader α) raw = .ok (a, rest) ↔ False) ∧
    ∀ {u : Unit} {raw rest : Bytes}, atEnd raw = .ok (u, rest) ↔ raw = [] ∧ rest = [] := by
  refine ⟨bind_eq_ok, ?_, take_eq_ok, ?_, id_eq_ok, u64_eq_ok, u16_eq_ok, ?_, ?_, ?_, ?_⟩
  · intro α a b raw rest
    exact (Except.ok.injEq _ _).to_iff.trans (Prod.mk.injEq ..).to_iff
  · intro b raw rest
    cases raw <;> simp [byte, eq_comm]
  · intro c _ e u raw rest
    by_cases hc : c <;> simp [failIf, hc]
  · intro α o e a raw rest
    cases o <;> simp [okOr, Except.okOr]
  · simp [fail]
  · intro u raw rest
    cases raw <;> simp [atEnd, eq_comm]

theorem decode_eq_ok {a : α} : decode r raw = .ok a ↔ ∃ rest, r raw = .ok (a, rest) := by
  simp only [decode, Except.ok_iff, Prod.exists]
  constructor
  · rintro ⟨_, rest, h, rfl⟩
    exact ⟨rest, h⟩
  · rintro ⟨rest, h⟩
    exact ⟨a, rest, h, rfl⟩

end Reader

structure Summary where
  digest : Id
  count : UInt64
  (used reserved : Two UInt64)
  deriving DecidableEq

namespace Summary

def default : Summary := ⟨0, 0, ⟨0, 0⟩, ⟨0, 0⟩⟩

def encode (s : Summary) : Bytes :=
  s.digest.bytes ++ u64Bytes s.count ++ u64Bytes s.used.zero ++ u64Bytes s.used.one ++
    u64Bytes s.reserved.zero ++ u64Bytes s.reserved.one

def decode : Reader Summary := do
  let digest ← Reader.id
  let count ← Reader.u64
  let used0 ← Reader.u64
  let used1 ← Reader.u64
  let reserved0 ← Reader.u64
  let reserved1 ← Reader.u64
  return ⟨digest, count, ⟨used0, used1⟩, ⟨reserved0, reserved1⟩⟩

@[simp] theorem length_encode (s : Summary) : s.encode.length = 72 := by simp [encode]

theorem decode_eq_ok {s : Summary} {raw rest : Bytes} : decode raw = .ok (s, rest) ↔ s.encode ++ rest = raw := by
  obtain ⟨digest, count, ⟨used0, used1⟩, reserved0, reserved1⟩ := s
  simp only [decode, encode, Reader.ok_iff, existsAndEq, List.append_assoc]
  simp

end Summary
end Kilogram
