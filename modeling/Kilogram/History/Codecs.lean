import Kilogram.History.Types
import Kilogram.Index.Node
import Kilogram.Vault.Work

/-!
# Stored records

The codecs of ledgers and of the root record, and for every record the vault stores an equivalence:
its decoder accepts exactly the bytes that its encoder writes for the values that the decoder checks.
-/

namespace Kilogram
open Except (failIf)
section
variable {α : Type} [DecidableEq α]

/-- A flag and a field that is zero where the flag is. -/
def Reader.optional (field : Reader α) (zero : α) (e : Error) : Reader (Option α) := do
  let flag ← Reader.byte
  let a ← field
  if flag = 0 ∧ a = zero then return none
  else if flag = 1 then return some a
  else Reader.fail e

theorem Reader.optional_eq_ok {field : Reader α} {zero : α} {e : Error} {put : α → Bytes}
    (hfield : ∀ {raw rest a}, field raw = .ok (a, rest) ↔ put a ++ rest = raw) {o : Option α}
    {raw rest : Bytes} : Reader.optional field zero e raw = .ok (o, rest) ↔ o.isSome.toUInt8 :: (put (o.getD zero) ++ rest) = raw := by
  simp only [Reader.optional, Reader.ok_iff, hfield]
  constructor
  -- a flag of zero is read only in front of a zero, so that nothing else is written back
  · rintro ⟨flag, _, rfl, a, _, rfl, h⟩
    split_ifs at h with h0 h1
    · obtain ⟨rfl, rfl⟩ := Reader.ok_iff.2.1.mp h
      rw [h0.1, h0.2]
      rfl
    · obtain ⟨rfl, rfl⟩ := Reader.ok_iff.2.1.mp h
      rw [h1]
      rfl
    · simp only [Reader.ok_iff] at h
  · rintro rfl
    refine ⟨_, _, rfl, _, _, rfl, ?_⟩
    cases o with
    | none => exact congrFun (if_pos ⟨rfl, rfl⟩) rest
    | some a =>
      have hset : ¬ ((1 : UInt8) = 0 ∧ a = zero) := fun h => absurd h.1 (by decide)
      exact (congrFun (if_neg hset) rest).trans (congrFun (if_pos rfl) rest)

end

namespace History

theorem readOptional_eq_ok {o : Option Id} {raw rest : Bytes} :
    readOptional raw = .ok (o, rest) ↔ putOptional o ++ rest = raw := by
  refine (Reader.optional_eq_ok (@Reader.id_eq_ok)).trans ?_
  cases o <;> rfl

theorem Heads.decode_eq_ok {h : Heads} {raw : Bytes} :
    Heads.decode raw = .ok h ↔ (h.frontiers.zero ≠ 0 ∧ h.frontiers.one ≠ 0) ∧ h.encode = raw := by
  simp only [Heads.decode, Heads.decodeFields, Heads.encode, Reader.decode_eq_ok, Reader.ok_iff,
    readOptional_eq_ok, existsAndEq, exists_const, not_or, not_not, and_true, true_and, List.append_nil]
  constructor
  · rintro ⟨view, f0, f1, t0, t1, ⟨-, rfl⟩, hf, rfl⟩
    exact ⟨hf, rfl⟩
  · rintro ⟨hf, rfl⟩
    exact ⟨h.view, _, _, _, _, ⟨rfl, rfl⟩, hf, rfl⟩

theorem Identity.decode_eq_ok {i : Identity} {raw : Bytes} : Identity.decode raw = .ok i ↔ i.encode = .ok raw := by
  constructor
  · intro h
    obtain ⟨j, -, h⟩ := Except.bind_eq_ok.mp h
    split at h
    · cases h
    · next canonical hj =>
      simp only [Except.ok_iff, not_not] at h
      obtain ⟨_, rfl, rfl⟩ := h
      exact hj
  · intro h
    have hfields : Identity.decodeFields raw = .ok (i, []) := by
      simp only [Identity.encode, validateScope, Except.ok_iff, not_or, not_not, UInt8.not_lt] at h
      obtain ⟨_, ⟨hlen, hascii⟩, _, -, rfl⟩ := h
      have hvalid : Utf8.valid i.init.scope.sessionId = true := Utf8.valid_of_ascii (by simpa using hascii)
      simp only [Identity.decodeFields, Reader.ok_iff, existsAndEq, exists_const, not_not, and_true, true_and]
      exact ⟨_, _, _, _, _, _, ⟨rfl, rfl⟩, hlen, by simp [hvalid], rfl⟩
    rw [Identity.decode, Except.bind_of_ok (Reader.decode_eq_ok.mpr ⟨[], hfields⟩)]
    simp only [h]
    exact Except.bind_of_ok (Except.failIf_of_not (not_not.mpr rfl) _) _

theorem requestId_ofBytes (x : RequestId) : BitVec.ofNat 128 (Bytes.toNat (Bytes.ofNat 16 x.toNat)) = x :=
  @Bytes.bitVec_ofNat 16 x

theorem RequestRecord.decode_eq_ok {r : RequestRecord} {raw : Bytes} :
    RequestRecord.decode raw = .ok r ↔ r.encode = raw := by
  simp only [RequestRecord.decode, RequestRecord.decodeFields, RequestRecord.encode, Reader.decode_eq_ok,
    Reader.ok_iff, readOptional_eq_ok, existsAndEq, exists_const, not_not, and_true, true_and, List.append_nil]
  constructor
  · rintro ⟨queue, request, bodyHash, event, ⟨-, rfl⟩, hlen, rfl⟩
    rw [Bytes.ofNat_bitVec hlen]
  · rintro rfl
    exact ⟨r.queue, _, _, _, ⟨rfl, rfl⟩, Bytes.length_ofNat 16 _, by rw [requestId_ofBytes]⟩

theorem Binding.readParents_eq_ok {n : Nat} {ps : List Parent} {raw rest : Bytes} :
    Binding.readParents n raw = .ok (ps, rest) ↔ ps.length = n ∧ ps.flatMap Binding.encodeParent ++ rest = raw := by
  induction n generalizing ps raw rest with
  | zero =>
    rw [Binding.readParents, Reader.ok_iff.2.1, List.length_eq_zero_iff, eq_comm]
    exact and_congr_right fun h => by rw [h, eq_comm]; rfl
  | succ n ih =>
    simp only [Binding.readParents, Binding.readParent, Reader.ok_iff, ih, existsAndEq, and_true]
    constructor
    · rintro ⟨ps, event, role, ordinal, rfl, hlen, rfl⟩
      simp [Binding.encodeParent, hlen]
    · rintro ⟨hlen, rfl⟩
      obtain ⟨p, ps, rfl⟩ := List.exists_cons_of_length_eq_add_one hlen
      exact ⟨ps, p.event, p.role, p.ordinal, by simp [Binding.encodeParent], Nat.succ.inj hlen, rfl⟩

theorem Binding.decode_eq_ok {b : Binding} {raw : Bytes} : Binding.decode raw = .ok b ↔ b.encode = .ok raw := by
  simp only [Binding.decode, Binding.decodeFields, Binding.encode, Except.ok_iff, Reader.decode_eq_ok,
    Reader.ok_iff, readOptional_eq_ok, Binding.readParents_eq_ok, existsAndEq, exists_const, not_not,
    UInt8.not_lt, and_true, true_and, List.append_nil]
  constructor
  · rintro ⟨format, view, kind, role, ordinal, sequence, request, previous, coreOffset, coreLen, coreHash,
      sourceHash, count, parents, ⟨⟨-, rfl⟩, hlen, hoffset, hcore, -, hparents⟩, _, hcheck, rfl⟩
    refine ⟨(), hcheck, ?_⟩
    rw [Bytes.ofNat_bitVec hlen, UInt16.toNat_ofNat_of_lt' hoffset, UInt16.toNat_ofNat_of_lt' hcore, hparents,
      UInt8.ofNat_toNat]
  · rintro ⟨_, hcheck, rfl⟩
    have hcount : b.parents.length ≤ 2 := by
      simp only [Binding.check, Except.ok_iff, not_or, Nat.not_lt] at hcheck
      exact hcheck.choose_spec.1.2.2.1
    have hcount' : (UInt8.ofNat b.parents.length).toNat = b.parents.length :=
      UInt8.toNat_ofNat_of_lt' (hcount.trans_lt (by decide))
    have hsame : (⟨b.format, b.view, b.kind, b.role, b.ordinal, b.sequence,
        BitVec.ofNat 128 (Bytes.toNat (Bytes.ofNat 16 b.request.toNat)), b.previous, .ofNat b.coreOffset.toNat,
        .ofNat b.coreLen.toNat, b.coreHash, b.sourceHash, b.parents⟩ : Binding) = b := by
      rw [requestId_ofBytes, UInt16.ofNat_toNat, UInt16.ofNat_toNat]
    exact ⟨_, _, _, _, _, _, _, _, _, _, _, _, _, _, ⟨⟨rfl, rfl⟩, Bytes.length_ofNat 16 _, b.coreOffset.toNat_lt,
      b.coreLen.toNat_lt, UInt8.le_iff_toNat_le.mpr (hcount'.trans_le hcount), hcount'.symm⟩, (),
      by rw [hsame]; exact hcheck, hsame⟩

end History

namespace Ledger

def encodeGrant : Option Grant → Bytes
  | none => [0]
  | some g => 1 :: (g.id.bytes ++ (u64Bytes g.start ++ (u64Bytes g.stop ++ (Id.bytes g.available).reverse)))

def encode (l : Ledger) : Bytes := Bytes.ofNat 8 l.quota ++ (Bytes.ofNat 8 l.repairFree ++
  (Bytes.ofNat 8 l.outstanding ++ (Bytes.ofNat 8 l.pending ++ (l.head.isSome.toUInt8 ::
    (u64Bytes (l.head.getD 0) ++ encodeGrant l.grant)))))

def decodeGrant : Reader (Option Grant) := do
  let flag ← Reader.byte
  if flag = 0 then return none
  else if flag = 1 then
    let id ← Reader.id
    let start ← Reader.u64
    let stop ← Reader.u64
    let bytes ← Reader.take 32
    let available := Id.ofBytes bytes.reverse
    Reader.failIf (¬ (start < stop ∧ stop.toNat - start.toNat ≤ 256)) (.integrity "grant bounds")
    Reader.failIf ((List.range 256).any fun i => stop.toNat - start.toNat ≤ i && available.getLsbD i)
      (.integrity "grant bitmap")
    return some ⟨id, start, stop, available⟩
  else Reader.fail (.integrity "grant flag")

def decode : Reader Ledger := do
  let quota ← Reader.u64
  let repairFree ← Reader.u64
  let outstanding ← Reader.u64
  let pending ← Reader.u64
  let head ← Reader.optional Reader.u64 0 (.integrity "head flag")
  let grant ← decodeGrant
  return ⟨quota.toNat, repairFree.toNat, outstanding.toNat, pending.toNat, head, grant⟩

/-- The ledgers the decoder accepts: amounts of sixty-four bits and a grant of 1 to 256 ordinals. -/
structure Canonical (l : Ledger) : Prop where
  quota : l.quota < 2 ^ 64
  repairFree : l.repairFree < 2 ^ 64
  outstanding : l.outstanding < 2 ^ 64
  pending : l.pending < 2 ^ 64
  grant : ∀ g ∈ l.grant, (g.start < g.stop ∧ g.stop.toNat - g.start.toNat ≤ 256) ∧ g.Inside

theorem decodeGrant_eq_ok {o : Option Grant} {raw rest : Bytes} : decodeGrant raw = .ok (o, rest) ↔
    (∀ g ∈ o, (g.start < g.stop ∧ g.stop.toNat - g.start.toNat ≤ 256) ∧ g.Inside) ∧ encodeGrant o ++ rest = raw := by
  have hinside (g : Grant) : (¬ (List.range 256).any fun i => g.stop.toNat - g.start.toNat ≤ i &&
      g.available.getLsbD i) ↔ g.Inside := by
    simp only [List.any_eq_true, List.mem_range, Bool.and_eq_true, decide_eq_true_eq, not_exists, not_and]
    exact ⟨fun h i hi => Nat.not_le.mp fun hle => h i (BitVec.lt_of_getLsbD hi) hle hi,
      fun h i _ hle hi => absurd (h i hi) (Nat.not_lt.mpr hle)⟩
  simp only [decodeGrant, Reader.ok_iff]
  constructor
  · rintro ⟨flag, _, rfl, h⟩
    split_ifs at h with h0 h1
    · obtain ⟨rfl, rfl⟩ := Reader.ok_iff.2.1.mp h
      rw [h0]
      exact ⟨by simp, rfl⟩
    · simp only [Reader.ok_iff, existsAndEq, exists_const, not_not, and_true, true_and] at h
      obtain ⟨id, start, stop, bs, rfl, hlen, hspan, hbits, rfl⟩ := h
      refine ⟨fun g hg => ?_, ?_⟩
      · cases hg
        exact ⟨hspan, (hinside ⟨id, start, stop, Id.ofBytes bs.reverse⟩).mp hbits⟩
      · rw [encodeGrant, Id.bytes_ofBytes (by rwa [List.length_reverse]), List.reverse_reverse, h1]
        simp
    · simp only [Reader.ok_iff] at h
  · rintro ⟨hg, rfl⟩
    cases o with
    | none => exact ⟨0, _, rfl, rfl⟩
    | some g =>
      obtain ⟨hspan, hin⟩ := hg g rfl
      simp only [encodeGrant, List.cons_append, List.append_assoc]
      refine ⟨1, _, rfl, ?_⟩
      rw [if_neg (by decide), if_pos rfl]
      simp only [Reader.ok_iff, existsAndEq, exists_const, not_not, and_true, true_and]
      refine ⟨_, _, _, (Id.bytes g.available).reverse, rfl, ?_, hspan, ?_, ?_⟩
      · rw [List.length_reverse, Id.length_bytes]
      · rw [List.reverse_reverse, Id.ofBytes_bytes]
        exact (hinside g).mpr hin
      · rw [List.reverse_reverse, Id.ofBytes_bytes]

theorem decode_eq_ok {l : Ledger} {raw rest : Bytes} :
    decode raw = .ok (l, rest) ↔ l.Canonical ∧ l.encode ++ rest = raw := by
  simp only [decode, Reader.ok_iff, Reader.optional_eq_ok @Reader.u64_eq_ok, decodeGrant_eq_ok, existsAndEq,
    and_true, true_and]
  constructor
  · rintro ⟨quota, repairFree, outstanding, pending, head, grant, rfl, hg, rfl⟩
    refine ⟨⟨quota.toNat_lt, repairFree.toNat_lt, outstanding.toNat_lt, pending.toNat_lt, hg⟩, ?_⟩
    simp [encode, u64Bytes]
  · rintro ⟨h, rfl⟩
    simp only [encode, ← u64Bytes_ofNat h.quota, ← u64Bytes_ofNat h.repairFree, ← u64Bytes_ofNat h.outstanding,
      ← u64Bytes_ofNat h.pending, List.append_assoc, List.cons_append]
    refine ⟨_, _, _, _, _, _, rfl, h.grant, ?_⟩
    rw [UInt64.toNat_ofNat_of_lt' h.quota, UInt64.toNat_ofNat_of_lt' h.repairFree,
      UInt64.toNat_ofNat_of_lt' h.outstanding, UInt64.toNat_ofNat_of_lt' h.pending]

end Ledger

def Layout.tag : Layout → Bytes
  | .component5 => [5]
  | .runtime6 => 6 :: ascii "KGOD2RT\x00\x00\x01"
  | .migrated7 => 7 :: ascii "KGOD2MG\x00\x00\x01"

def Layout.read : Reader Layout := do
  let tag ← Reader.byte
  if tag = 5 then return .component5
  else if tag = 6 then
    let magic ← Reader.take 10
    Reader.failIf (magic ≠ ascii "KGOD2RT\x00\x00\x01") (.integrity "anchor version/layout")
    return .runtime6
  else if tag = 7 then
    let magic ← Reader.take 10
    Reader.failIf (magic ≠ ascii "KGOD2MG\x00\x00\x01") (.integrity "anchor version/layout")
    return .migrated7
  else Reader.fail (.integrity "anchor version/layout")

theorem Layout.read_eq_ok {l : Layout} {raw rest : Bytes} :
    Layout.read raw = .ok (l, rest) ↔ l.tag ++ rest = raw := by
  simp only [Layout.read, Reader.ok_iff]
  constructor
  · rintro ⟨tag, _, rfl, h⟩
    split_ifs at h with h5 h6 h7
    · obtain ⟨rfl, rfl⟩ := Reader.ok_iff.2.1.mp h
      rw [h5]
      rfl
    · simp only [Reader.ok_iff, not_not] at h
      obtain ⟨_, _, ⟨-, rfl⟩, _, _, ⟨rfl, rfl⟩, rfl, rfl⟩ := h
      rw [h6]
      rfl
    · simp only [Reader.ok_iff, not_not] at h
      obtain ⟨_, _, ⟨-, rfl⟩, _, _, ⟨rfl, rfl⟩, rfl, rfl⟩ := h
      rw [h7]
      rfl
    · simp only [Reader.ok_iff] at h
  · rintro rfl
    cases l with
    | component5 => exact ⟨5, _, rfl, rfl⟩
    | runtime6 => exact ⟨6, _, rfl, rfl⟩
    | migrated7 => exact ⟨7, _, rfl, rfl⟩

namespace Stored

/-- The root record with the summaries of the sixty-four trees. -/
structure Root where
  layout : Layout
  (incarnation account claim signing encryption : Id)
  contexts : Two Id
  generation : UInt64
  (commitId requestDigest : Id)
  roots : List.Vector Summary 64
  ledger : Two Ledger
  deriving DecidableEq

namespace Root

def slot (r : Root) (s : Nat) : Summary := r.roots.toList.getD s Summary.default
def used (r : Root) (s : Nat) (c : UInt8) : Nat := ((r.slot s).used.get c).toNat
def reserved (r : Root) (s : Nat) (c : UInt8) : Nat := ((r.slot s).reserved.get c).toNat

def totals (r : Root) : Result (Two Nat × Two Nat) := r.roots.toList.foldlM (fun (used, reserved) s => do
    let used0 ← addOr used.zero s.used.zero.toNat (.bound "used total")
    let reserved0 ← addOr reserved.zero s.reserved.zero.toNat (.bound "reserved total")
    let used1 ← addOr used.one s.used.one.toNat (.bound "used total")
    let reserved1 ← addOr reserved.one s.reserved.one.toNat (.bound "reserved total")
    return (⟨used0, used1⟩, ⟨reserved0, reserved1⟩)) (⟨0, 0⟩, ⟨0, 0⟩)

def checkLayout (r : Root) : Result Unit :=
  match r.layout with
  | .component5 =>
    failIf ([21, 22, 23, 45, 46, 47, 51].any fun s => r.slot s ≠ Summary.default)
      (.integrity "component runtime slots")
  | .runtime6 =>
    failIf ((r.slot 22).count ≠ 1 ∨ r.used 22 1 ≠ 0 ∨ r.reserved 22 1 ≠ 0 ∨
      ([17, 18, 19, 23, 41, 42, 43, 46, 47] ++ List.range' 50 14).any fun s => r.slot s ≠ Summary.default)
      (.integrity "runtime profile root")
  | .migrated7 =>
    failIf ((r.slot 22).count ≠ 1 ∨ r.used 22 1 ≠ 0 ∨ r.reserved 22 1 ≠ 0 ∨
      (r.slot 51).count < 5 ∨ r.used 51 1 ≠ 0 ∨ r.reserved 51 1 ≠ 0 ∨
      ([17, 18, 19, 41, 42, 43, 46] ++ List.range' 52 12).any fun s => r.slot s ≠ Summary.default)
      (.integrity "migrated root layout")

def control (r : Root) (c : UInt8) : Result Nat := do
  let sum (start : Nat) (amounts : List Nat) (e : Error) := amounts.foldlM (addOr · · e) start
  let base := c.toNat * 24
  let n ← sum (r.used (base + Namespace.control.code) c) [r.used (base + Namespace.current.code) c,
    r.used (base + Namespace.native.code) c] (.bound "control budget")
  let n ← if r.layout = .component5 then pure n else
    sum n [r.used (base + 21) c, r.reserved (base + 21) c, r.used 22 c, r.reserved 22 c]
      (.bound "runtime control budget")
  if r.layout = .migrated7 then
    sum n [r.reserved (base + 15) c, if (r.slot (base + 23)).count = 1 then 4096 + 585 else 0]
      (.bound "migration control budget")
  else return n

def checkContext (r : Root) (c : UInt8) (used reserved : Nat) : Result Unit := do
  (r.ledger.get c).check used reserved
  let control ← r.control c
  failIf (control > 4 * 1024 * 1024) .quota

def check (r : Root) : Result Unit := do
  failIf (r.contexts.zero = r.contexts.one ∨ r.account = 0 ∨ r.claim = 0 ∨ r.generation = 0)
    (.integrity "anchor identity/generation")
  r.checkLayout
  let (used, reserved) ← r.totals
  r.checkContext 0 used.zero reserved.zero
  r.checkContext 1 used.one reserved.one

def encode (r : Root) : Bytes := r.layout.tag ++ (r.incarnation.bytes ++ (r.account.bytes ++ (r.claim.bytes ++
  (r.signing.bytes ++ (r.encryption.bytes ++ (r.contexts.zero.bytes ++ (r.contexts.one.bytes ++
    (u64Bytes r.generation ++ (r.commitId.bytes ++ (r.requestDigest.bytes ++
      (r.roots.toList.flatMap Summary.encode ++ (r.ledger.zero.encode ++ r.ledger.one.encode))))))))))))

def readRoots : (n : Nat) → Reader (List.Vector Summary n)
  | 0 => return .nil
  | n + 1 => do
    let s ← Summary.decode
    Reader.failIf (s.count = 0 ∧ s ≠ Summary.default) (.integrity "empty root")
    let rest ← readRoots n
    return .cons s rest

def decodeFields : Reader Root := do
  let layout ← Layout.read
  let incarnation ← Reader.id
  let account ← Reader.id
  let claim ← Reader.id
  let signing ← Reader.id
  let encryption ← Reader.id
  let context0 ← Reader.id
  let context1 ← Reader.id
  let generation ← Reader.u64
  let commitId ← Reader.id
  let requestDigest ← Reader.id
  let roots ← readRoots 64
  let ledger0 ← Ledger.decode
  let ledger1 ← Ledger.decode
  Reader.atEnd
  return ⟨layout, incarnation, account, claim, signing, encryption, ⟨context0, context1⟩, generation, commitId,
    requestDigest, roots, ⟨ledger0, ledger1⟩⟩

def decode (raw : Bytes) : Result Root := do
  failIf (raw.length > 32 * 1024) (.integrity "anchor cap")
  let r ← Reader.decode decodeFields raw
  r.check
  return r

/-- What the decoder asks beyond `check`. -/
def Canonical (r : Root) : Prop := (∀ s ∈ r.roots.toList, s.count = 0 → s = Summary.default) ∧
  r.ledger.zero.Canonical ∧ r.ledger.one.Canonical

theorem readRoots_eq_ok {n : Nat} {v : List.Vector Summary n} {raw rest : Bytes} :
    readRoots n raw = .ok (v, rest) ↔ (∀ s ∈ v.toList, s.count = 0 → s = Summary.default) ∧
      v.toList.flatMap Summary.encode ++ rest = raw := by
  induction n generalizing raw rest with
  | zero =>
    obtain rfl := v.eq_nil
    rw [readRoots, Reader.ok_iff.2.1]
    simp [eq_comm]
  | succ n ih =>
    obtain ⟨s, w, rfl⟩ := v.exists_eq_cons
    simp only [readRoots, Reader.ok_iff, Summary.decode_eq_ok, ih, List.Vector.toList_cons, List.forall_mem_cons,
      List.flatMap_cons, List.append_assoc, existsAndEq, exists_const, not_and, not_not, and_true]
    constructor
    · rintro ⟨s, w, rfl, hs, hw, heq⟩
      obtain ⟨rfl, hrest⟩ := List.cons.inj (congrArg Subtype.val heq)
      obtain rfl := Subtype.ext hrest
      exact ⟨⟨hs, hw⟩, rfl⟩
    · rintro ⟨⟨hs, hw⟩, rfl⟩
      exact ⟨s, w, rfl, hs, hw, rfl⟩

theorem length_encode_le (r : Root) : r.encode.length ≤ 32 * 1024 := by
  have htag : r.layout.tag.length ≤ 11 := by cases r.layout <;> decide
  have hledger (l : Ledger) : l.encode.length ≤ 122 := by
    obtain ⟨_, _, _, _, _, grant⟩ := l
    cases grant <;> simp [Ledger.encode, Ledger.encodeGrant]
  have hroots : (r.roots.toList.flatMap Summary.encode).length = 64 * 72 := by
    simp [List.length_flatMap]
  have := hledger r.ledger.zero
  have := hledger r.ledger.one
  simp only [encode, List.length_append, Id.length_bytes, length_u64Bytes, hroots]
  omega

theorem decode_eq_ok {r : Root} {raw : Bytes} :
    decode raw = .ok r ↔ (r.Canonical ∧ r.check = .ok ()) ∧ r.encode = raw := by
  simp only [decode, decodeFields, Except.ok_iff, Reader.decode_eq_ok, Reader.ok_iff, Layout.read_eq_ok,
    readRoots_eq_ok, Ledger.decode_eq_ok, existsAndEq, exists_const, and_true, true_and, List.append_nil]
  constructor
  · rintro ⟨-, layout, incarnation, account, claim, signing, encryption, context0, context1, generation, commitId,
      requestDigest, roots, ledger0, ledger1, ⟨rfl, hcanonical⟩, _, hcheck, rfl⟩
    exact ⟨⟨hcanonical, hcheck⟩, rfl⟩
  · rintro ⟨⟨hcanonical, hcheck⟩, rfl⟩
    exact ⟨Nat.not_lt.mpr r.length_encode_le, r.layout, _, _, _, _, _, _, _, _, _, _, _, _, _,
      ⟨rfl, hcanonical⟩, (), hcheck, rfl⟩

end Root
end Stored

/-- Each decoder accepts exactly the bytes written for the values it checks, so that what is written is
read back and no two byte strings are read as one record. -/
theorem record_codecs_canonical :
    (∀ {s : Summary} {raw rest}, Summary.decode raw = .ok (s, rest) ↔ s.encode ++ rest = raw) ∧
    (∀ {l : Ledger} {raw rest}, Ledger.decode raw = .ok (l, rest) ↔ l.Canonical ∧ l.encode ++ rest = raw) ∧
    (∀ {r : Stored.Root} {raw}, Stored.Root.decode raw = .ok r ↔ (r.Canonical ∧ r.check = .ok ()) ∧ r.encode = raw) ∧
    (∀ {t : Ticket} {raw}, Ticket.decode raw = .ok t ↔ t.Wf ∧ t.encode = raw) ∧
    (∀ {n : Index.Node} {raw}, Index.Node.decode raw = .ok n ↔ n.Wf ∧ n.encode = raw) ∧
    (∀ {i : History.Identity} {raw}, History.Identity.decode raw = .ok i ↔ i.encode = .ok raw) ∧
    (∀ {h : History.Heads} {raw}, History.Heads.decode raw = .ok h ↔
      (h.frontiers.zero ≠ 0 ∧ h.frontiers.one ≠ 0) ∧ h.encode = raw) ∧
    (∀ {b : History.Binding} {raw}, History.Binding.decode raw = .ok b ↔ b.encode = .ok raw) ∧
    (∀ {r : History.RequestRecord} {raw}, History.RequestRecord.decode raw = .ok r ↔ r.encode = raw) ∧
    (∀ {p : ProjectionValue} {raw}, ProjectionValue.decode raw = .ok p ↔ p.encode = .ok raw) :=
  ⟨Summary.decode_eq_ok, Ledger.decode_eq_ok, Stored.Root.decode_eq_ok, Ticket.decode_eq_ok,
    Index.Node.decode_eq_ok, History.Identity.decode_eq_ok, History.Heads.decode_eq_ok,
    History.Binding.decode_eq_ok, History.RequestRecord.decode_eq_ok, ProjectionValue.decode_eq_ok⟩

/-- A ledger with a grant of no ordinal and a root with a digest for an empty tree pass `check`, and their
bytes are refused. -/
theorem checked_records_not_read_back :
    (∃ l : Ledger, l.check 0 0 = .ok () ∧ Ledger.decode l.encode = .error (.integrity "grant bounds")) ∧
    ∃ r : Stored.Root, r.check = .ok () ∧ Stored.Root.decode r.encode = .error (.integrity "empty root") := by
  let l : Ledger := ⟨tempCredit, 0, 0, 0, none, none⟩
  let roots : List.Vector Summary 64 := ⟨⟨1, 0, ⟨0, 0⟩, ⟨0, 0⟩⟩ :: List.replicate 63 Summary.default, rfl⟩
  exact ⟨⟨{ l with grant := some ⟨0, 0, 0, 0⟩ }, by decide +kernel, by decide +kernel⟩,
    ⟨.component5, 0, 1, 1, 0, 0, ⟨0, 1⟩, 1, 0, 0, roots, ⟨l, l⟩⟩, by decide +kernel, by decide +kernel⟩

end Kilogram
