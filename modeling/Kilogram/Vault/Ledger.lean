import Kilogram.Vault.Values

/-!
# Credit ledgers and tickets

Each context has a ledger: a repair pool, a grant of frames taken from it, and the counters of the
pending tickets. Amounts have sixty-four bits in the source; here every sum and difference is checked as
the source checks it.
-/

namespace Kilogram

def minDebt : Nat := 48 * 1024

/-- What a stored value of this length costs: the value, its envelope, its key and two nodes. -/
def charge (bytes : Bytes) : Nat := bytes.length + 41 + 32 + 2 * nodeCap

inductive CreditAction where
  | queue (context : UInt8) (sequence : UInt64) (id : Id) (body : Bytes)
  | grant (context : UInt8) (id : Id) (start stop : UInt64)
  | cancelGrant (context : UInt8) (id : Id)
  | refill (context : UInt8) (bytes : Nat)
  | pending (context : UInt8) (ordinal : UInt64) (event : Id) (body : Bytes) (head : Bool)
      (grant : Option Id)
  | materialize (context : UInt8) (queue : UInt64) (request : Id) (ordinal : UInt64) (event : Id)
      (records : List Key)
  | readable (context : UInt8) (ordinal : UInt64) (event : Id) (records : List Key)
  | acknowledge (context : UInt8) (ordinal : UInt64) (event : Id) (records : List Key)
  | capturePending (context : UInt8) (ordinal : UInt64) (event : Id)
      (originalAuth admissionAuth : Id)

namespace CreditAction

def context : CreditAction → UInt8
  | queue c .. | grant c .. | cancelGrant c .. | refill c .. | pending c .. | materialize c ..
  | readable c .. | acknowledge c .. | capturePending c .. => c

/-- The records an action cites as evidence. -/
def refs : CreditAction → List Key
  | materialize _ _ _ _ _ records | readable _ _ _ records | acknowledge _ _ _ records => records
  | _ => []

def inputBound : CreditAction → Result Nat
  | queue _ _ _ body => do
    Except.failIf (body.length > 4096) (.bound "queue input")
    return body.length + 512
  | pending _ _ _ body _ _ => do
    Except.failIf (body.length > 16 * 1024) (.bound "pending input")
    return body.length + 512
  | materialize _ _ _ _ _ records | readable _ _ _ records | acknowledge _ _ _ records => do
    Except.failIf (records.length > 24) (.bound "credit refs")
    return records.length * 40 + 512
  | _ => return 512

end CreditAction

/-- A window of at most 256 ordinals. Bit `i` of `available` is bit `i % 8` of byte `i / 8` of the
source's bitmap and stands for the ordinal `start + i`. -/
structure Grant where
  id : Id
  (start stop : UInt64)
  available : BitVec 256
  deriving DecidableEq

namespace Grant

def count (g : Grant) : Nat := (List.range 256).countP fun i => g.available.getLsbD i

/-- The bit of an ordinal in the window. -/
def bit (g : Grant) (n : UInt64) : Result Nat := do
  Except.failIf (n < g.start ∨ n ≥ g.stop) .conflict
  return n.toNat - g.start.toNat

def add (g : Grant) (i : Nat) : Grant :=
  { g with available := g.available ||| BitVec.twoPow 256 i }

def take (g : Grant) (i : Nat) : Grant :=
  { g with available := g.available &&& ~~~BitVec.twoPow 256 i }

@[simp] theorem getLsbD_add (g : Grant) (i j : Nat) :
    (g.add i).available.getLsbD j = (g.available.getLsbD j || (decide (i < 256) && decide (i = j))) := by
  simp [add, BitVec.getLsbD_twoPow]

@[simp] theorem getLsbD_take (g : Grant) (i j : Nat) :
    (g.take i).available.getLsbD j = (g.available.getLsbD j && !(decide (i < 256) && decide (i = j))) := by
  simp only [take, BitVec.getLsbD_and, BitVec.getLsbD_not, BitVec.getLsbD_twoPow]
  rcases h : g.available.getLsbD j with _ | _
  · rfl
  · have hj : j < 256 := BitVec.lt_of_getLsbD h
    simp [hj]

/-- Counting over a range where two predicates differ at one number only. -/
private theorem countP_of_differ {p q : Nat → Bool} {n i : Nat} (hi : i < n) (hp : p i = true)
    (hq : q i = false) (h : ∀ j, j ≠ i → p j = q j) :
    (List.range n).countP p = (List.range n).countP q + 1 := by
  induction n with
  | zero => omega
  | succ n ih =>
    rw [List.range_succ, List.countP_append, List.countP_append, List.countP_singleton, List.countP_singleton]
    by_cases hin : i = n
    · subst hin
      have hsame : (List.range i).countP p = (List.range i).countP q := by
        apply List.countP_congr
        intro j hj
        rw [h j (by have := List.mem_range.mp hj; omega)]
      rw [hp, hq, hsame]
      rfl
    · rw [ih (by omega), h n (by omega)]
      omega

theorem count_take {g : Grant} {i : Nat} (hset : g.available.getLsbD i = true) : g.count = (g.take i).count + 1 := by
  have hi : i < 256 := BitVec.lt_of_getLsbD hset
  apply countP_of_differ hi hset
  · rw [getLsbD_take]
    simp [hi]
  · intro j hj
    simp [Ne.symm hj]

/-- Every set bit stands for an ordinal of the window. -/
def Inside (g : Grant) : Prop := ∀ i, g.available.getLsbD i = true → i < g.stop.toNat - g.start.toNat

theorem Inside.take {g : Grant} (h : g.Inside) (i : Nat) : (g.take i).Inside := by
  intro j hj
  rw [getLsbD_take, Bool.and_eq_true] at hj
  exact h j hj.1

end Grant

structure Ledger where
  (quota repairFree outstanding pending : Nat)
  head : Option UInt64
  grant : Option Grant
  deriving DecidableEq

namespace Ledger

def grantBytes (l : Ledger) : Nat :=
  match l.grant with
  | some g => g.count * frameCredit
  | none => 0

def isPristine (l : Ledger) : Bool :=
  l.repairFree = repairPool ∧ l.outstanding = 0 ∧ l.pending = 0 ∧ l.head = none ∧ l.grant = none

def check (l : Ledger) (used reserved : Nat) : Result Unit := do
  let granted ← addOr l.repairFree l.grantBytes (.bound "protected credits")
  let guarded ← addOr granted (if l.head.isNone then tempCredit else 0) (.bound "protected credits")
  let held ← addOr used reserved (.bound "quota sum")
  let total ← addOr held guarded (.bound "quota sum")
  let granted ← addOr l.repairFree l.grantBytes (.bound "pool")
  let pool ← addOr granted l.outstanding (.bound "pool")
  Except.failIf (total > l.quota ∨ pool > repairPool ∨ l.pending > 64) .quota

def new (quota : Nat) : Result Ledger := do
  let l : Ledger := ⟨quota, repairPool, 0, 0, none, none⟩
  l.check 0 0
  return l

/-- Credits the quota keeps back: free repair credit, granted frames and one temporary slot. -/
def guarded (l : Ledger) : Nat := l.repairFree + l.grantBytes + if l.head.isNone then tempCredit else 0

/-- The repair pool: free, granted and outstanding. -/
def pool (l : Ledger) : Nat := l.repairFree + l.grantBytes + l.outstanding

theorem check_eq_ok {l : Ledger} {used reserved : Nat} (h : l.check used reserved = .ok ()) :
    used + reserved + l.guarded ≤ l.quota ∧ l.pool ≤ repairPool ∧ l.pending ≤ 64 ∧
      used + reserved + l.guarded < 2 ^ 64 ∧ l.pool < 2 ^ 64 := by
  simp only [check, Except.ok_iff, addOr_eq_ok, not_or, Nat.not_lt] at h
  obtain ⟨a, ⟨ha, rfl⟩, b, ⟨hb, rfl⟩, c, ⟨hc, rfl⟩, d, ⟨hd, rfl⟩, e, ⟨he, rfl⟩, f, ⟨hf, rfl⟩,
    htotal, hpool, hpending⟩ := h
  exact ⟨htotal, hpool, hpending, hd, hf⟩

theorem check_of_le {l : Ledger} {used reserved : Nat} (hquota : used + reserved + l.guarded ≤ l.quota)
    (hlt : used + reserved + l.guarded < 2 ^ 64) (hpool : l.pool ≤ repairPool)
    (hpending : l.pending ≤ 64) : l.check used reserved = .ok () := by
  have hp : l.repairFree + l.grantBytes + l.outstanding ≤ 64 * 1024 * 1024 := hpool
  unfold guarded at hlt hquota
  unfold check
  rw [addOr_of_lt (by omega), Except.bind_of_ok rfl, addOr_of_lt (by omega), Except.bind_of_ok rfl,
    addOr_of_lt (by omega), Except.bind_of_ok rfl, addOr_of_lt (by omega), Except.bind_of_ok rfl,
    addOr_of_lt (by omega), Except.bind_of_ok rfl, addOr_of_lt (by omega), Except.bind_of_ok rfl]
  apply Except.failIf_of_not
  simp only [not_or, Nat.not_lt]
  exact ⟨hquota, hpool, hpending⟩

end Ledger

structure Ticket where
  stage : UInt8
  id : Id
  (repair head : Bool)
  body : Bytes
  admissionPaid : Nat
  captures : Option (Id × Id)

namespace Ticket

def encodeCaptures : Option (Id × Id) → Bytes
  | none => [0]
  | some (original, admission) => 1 :: (original.bytes ++ admission.bytes)

def encode (t : Ticket) : Bytes := 5 :: t.stage :: t.repair.toUInt8 :: t.head.toUInt8 :: (t.id.bytes ++
    (Bytes.ofNat 8 t.admissionPaid ++ (encodeCaptures t.captures ++ (Bytes.ofNat 8 t.body.length ++ t.body))))

def decodeCaptures : Reader (Option (Id × Id)) := do
  let flag ← Reader.byte
  if flag = 0 then return none
  else if flag = 1 then
    let original ← Reader.id
    let admission ← Reader.id
    return some (original, admission)
  else Reader.fail (.integrity "capture flag")

def decodeFields (raw : Bytes) : Reader Ticket := do
  let version ← Reader.byte
  Reader.failIf (version ≠ 5) (.integrity "ticket version")
  let stage ← Reader.byte
  let repair ← Reader.byte
  let head ← Reader.byte
  let id ← Reader.id
  let paid ← Reader.u64
  let captures ← decodeCaptures
  let len ← Reader.u64
  Reader.failIf (¬ (1 ≤ stage ∧ stage ≤ 3) ∨ repair > 1 ∨ head > 1 ∨ len.toNat > 16 * 1024)
    (.integrity "ticket bound")
  let body ← Reader.take len.toNat
  Reader.atEnd
  Reader.failIf (paid.toNat > tempCredit ∨ captures = none ∧ paid ≠ 0 ∨
      stage ≠ 2 ∧ (repair ≠ 0 ∨ head ≠ 0 ∨ captures ≠ none ∨ paid ≠ 0) ∨
      head ≠ 0 ∧ repair = 0 ∨ stage = 2 ∧ charge raw + paid.toNat > tempCredit)
    (.integrity "ticket conservation/phase")
  return ⟨stage, id, repair ≠ 0, head ≠ 0, body, paid.toNat, captures⟩

def decode (raw : Bytes) : Result Ticket := Reader.decode (decodeFields raw) raw

/-- The tickets the decoder accepts. -/
structure Wf (t : Ticket) : Prop where
  stage : 1 ≤ t.stage ∧ t.stage ≤ 3
  body : t.body.length ≤ 16 * 1024
  paid : t.admissionPaid ≤ tempCredit
  unpaid : t.captures = none → t.admissionPaid = 0
  plain : t.stage ≠ 2 → t.repair = false ∧ t.head = false ∧ t.captures = none ∧ t.admissionPaid = 0
  repaired : t.head = true → t.repair = true
  fits : t.stage = 2 → charge t.encode + t.admissionPaid ≤ tempCredit

theorem decodeCaptures_eq_ok {c : Option (Id × Id)} {raw rest : Bytes} :
    decodeCaptures raw = .ok (c, rest) ↔ encodeCaptures c ++ rest = raw := by
  simp only [decodeCaptures, Reader.ok_iff]
  constructor
  · rintro ⟨flag, _, rfl, h⟩
    split_ifs at h with h0 h1
    · obtain ⟨rfl, rfl⟩ := Reader.ok_iff.2.1.mp h
      rw [h0]
      rfl
    · simp only [Reader.ok_iff] at h
      obtain ⟨_, _, rfl, _, _, rfl, rfl, rfl⟩ := h
      simp [encodeCaptures, h1]
    · simp only [Reader.ok_iff] at h
  · rintro rfl
    cases c with
    | none => exact ⟨0, _, rfl, rfl⟩
    | some pair =>
      refine ⟨1, _, rfl, ?_⟩
      rw [if_neg (by decide), if_pos rfl]
      simp only [Reader.ok_iff]
      exact ⟨_, _, (List.append_assoc ..).symm, _, _, rfl, rfl, rfl⟩

theorem toUInt8_flag {b : UInt8} (h : b ≤ 1) : (decide (b ≠ 0)).toUInt8 = b := by
  rcases Two.eq_zero_or_one h with rfl | rfl <;> rfl

/-- The decoder accepts exactly the canonical bytes of well-formed tickets. -/
theorem decode_eq_ok {t : Ticket} {raw : Bytes} : decode raw = .ok t ↔ t.Wf ∧ t.encode = raw := by
  have hzero {n : UInt64} : n = 0 ↔ n.toNat = 0 := UInt64.toNat_inj.symm
  simp only [decode, decodeFields, Reader.decode_eq_ok, Reader.ok_iff, decodeCaptures_eq_ok, existsAndEq,
    exists_const, ne_eq, not_or, not_not, Nat.not_lt, UInt8.not_lt, hzero, and_true, true_and, List.append_nil]
  constructor
  · rintro ⟨stage, repair, head, id, paid, captures, len, body, hraw, ⟨hstage, hrepair, hhead, hlen⟩, hbody,
      ⟨hpaid, hunpaid, hplain, hhead', hfits⟩, rfl⟩
    have hencode : encode ⟨stage, id, repair ≠ 0, head ≠ 0, body, paid.toNat, captures⟩ = raw := by
      rw [encode, toUInt8_flag hrepair, toUInt8_flag hhead, ← hraw, hbody]
      rfl
    refine ⟨⟨hstage, hbody ▸ hlen, hpaid, fun hc => not_not.mp fun hp => hunpaid ⟨hc, hp⟩, fun hs => ?_,
      fun h => ?_, fun hs => ?_⟩, hencode⟩
    · simpa [show stage ≠ 2 from hs] using hplain
    · have hset : head ≠ 0 := by simpa using h
      simpa [hset] using hhead'
    · rw [hencode]
      exact Nat.not_lt.mp fun h => hfits ⟨hs, h⟩
  · rintro ⟨h, rfl⟩
    have hpaid : t.admissionPaid < 2 ^ 64 := h.paid.trans_lt (by decide)
    have hlen : t.body.length < 2 ^ 64 := h.body.trans_lt (by decide)
    have hpaid' := UInt64.toNat_ofNat_of_lt' hpaid
    have hlen' := UInt64.toNat_ofNat_of_lt' hlen
    have hle : ∀ b : Bool, b.toUInt8 ≤ 1 := by decide
    have hclear : ∀ b : Bool, b.toUInt8 = 0 ↔ b = false := by decide
    refine ⟨t.stage, t.repair.toUInt8, t.head.toUInt8, t.id, .ofNat t.admissionPaid, t.captures,
      .ofNat t.body.length, t.body, ?_, ⟨h.stage, hle _, hle _, hlen'.trans_le h.body⟩, hlen'.symm, ?_, ?_⟩
    · rw [u64Bytes_ofNat hpaid, u64Bytes_ofNat hlen]
      rfl
    · simp only [hpaid', hclear, not_and, not_or, not_not, Bool.not_eq_false, Bool.not_eq_true, Nat.not_lt]
      exact ⟨h.paid, h.unpaid, h.plain, h.repaired, h.fits⟩
    · simp [hpaid', hclear]

theorem decode_encode {t : Ticket} (h : t.Wf) : decode t.encode = .ok t := decode_eq_ok.mpr ⟨h, rfl⟩

end Ticket
end Kilogram
