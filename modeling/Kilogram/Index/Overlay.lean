import Kilogram.Index.Shape
import Kilogram.Index.Tree
import Kilogram.Lib.Region

/-!
# What an overlay stands for

Seen from outside, an overlay is a memory: each entrance of each scope holds a node or nothing. `Sound`
says that the three maps of the overlay stay in step.

Two entrances must not share an address. No function into 256 bits can keep all entrances of 256-bit
keys apart, so the assumption is about a set of keys: the entrances of those keys do not collide.
-/

namespace Kilogram.Index
open Radix
open Except (ok_iff)

/-- The entrance is an initial part of one of the keys. -/
def Known (K : Set Id) (e : Id × Nat) : Prop := e.2 ≤ 256 ∧ ∃ k ∈ K, cut k e.2 = e.1
theorem known_root {K : Set Id} {k : Id} (hk : k ∈ K) : Known K (0, 0) := ⟨Nat.zero_le _, k, hk, cut_zero k⟩

/-- Entrances of known keys have different addresses, across all scopes. -/
def CollisionFree [Primitives] (crypto : Crypto) (K : Set Id) : Prop :=
  ∀ ⦃σ σ' : UInt8⦄ ⦃e e' : Id × Nat⦄, Known K e → Known K e' →
    nodeAddress crypto σ e = nodeAddress crypto σ' e' → σ = σ' ∧ e = e'

theorem nodeAddress_plain (scope : UInt8) (p : Id) (n : Nat) (hn : n < 65536) :
    @nodeAddress Primitives.plain Crypto.blank scope (p, n) = BitVec.ofNat 256 (p.toNat + n + 512 * scope.toNat) := by
  obtain ⟨front, back, hf, hb, heq⟩ := Crypto.aad_node Crypto.blank scope (Bytes.ofNat 2 n ++ p.bytes)
  change Primitives.plain.keyedHash _ (Crypto.blank.aad scope (ascii "node") 0 ++ (Bytes.ofNat 2 n ++ p.bytes)) = _
  rw [heq]
  exact Primitives.plain_keyedHash _ scope n p hf hb hn

theorem collisionFree_plain : @CollisionFree Primitives.plain Crypto.blank {0, BitVec.ofNat 256 (2 ^ 255)} := by
  -- the prefix is zero, or the top bit alone, and then the entrance is not the root
  have hcases : ∀ p n, Known {0, BitVec.ofNat 256 (2 ^ 255)} (p, n) →
      n ≤ 256 ∧ (p.toNat = 0 ∨ p.toNat = 2 ^ 255 ∧ n ≠ 0) := by
    rintro p n ⟨hn, k, hk, hcut⟩
    simp only at hcut
    subst hcut
    refine ⟨hn, ?_⟩
    rcases hk with rfl | rfl
    · left
      simp [cut]
    · cases n with
      | zero => exact .inl (by rw [cut_zero]; rfl)
      | succ n =>
        have hone : cut (BitVec.ofNat 256 (2 ^ 255)) 1 = BitVec.ofNat 256 (2 ^ 255) := by decide +kernel
        refine .inr ⟨?_, Nat.succ_ne_zero n⟩
        rw [← hone, cut_cut, Nat.min_eq_left (by omega), hone]
        decide +kernel
  rintro σ σ' ⟨p, n⟩ ⟨p', n'⟩ he he' haddr
  obtain ⟨hn, hp⟩ := hcases p n he
  obtain ⟨hn', hp'⟩ := hcases p' n' he'
  have hσ := σ.toNat_lt
  have hσ' := σ'.toNat_lt
  rw [nodeAddress_plain σ p n (by omega), nodeAddress_plain σ' p' n' (by omega)] at haddr
  have hnat := congrArg BitVec.toNat haddr
  rw [BitVec.toNat_ofNat, BitVec.toNat_ofNat, Nat.mod_eq_of_lt (by omega), Nat.mod_eq_of_lt (by omega)] at hnat
  have hparts : p.toNat = p'.toNat ∧ n = n' ∧ σ.toNat = σ'.toNat := by omega
  obtain ⟨h1, h2, h3⟩ := hparts
  exact ⟨UInt8.toNat_inj.mp h3, Prod.ext (BitVec.eq_of_toNat_eq h1) h2⟩

namespace Tree
variable {a : Id} {n : Node} {s : Summary} {scope : UInt8} {e : Id × Nat}

theorem remember_eq_ok {tr tr' : Tree} (h : tr.remember a n s = .ok tr') :
    tr' = { tr with decoded := tr.decoded.insert a (n, s) } ∧
      (a ∈ tr.decoded ∨ (tr.decoded.size + 1) * tr.layout.decodedEntry ≤ maxPlan) := by
  simp only [remember, ok_iff] at h
  obtain ⟨_, hcap, rfl⟩ := h
  refine ⟨rfl, ?_⟩
  by_cases hmem : a ∈ tr.decoded
  · exact .inl hmem
  · refine .inr (Nat.not_lt.mp fun hgt => hcap ⟨?_, hgt⟩)
    simpa using hmem

theorem reuse_spec (tr : Tree) (a : Id) (scope : UInt8) (n : Node) (s : Summary) :
    ∃ reused fifo, tr.reuse a scope n s = { tr with reused := reused, reuseFifo := fifo } ∧
      ∀ a' x, reused[a']? = some x → tr.reused[a']? = some x ∨ a' = a ∧ x = (scope, n, s) := by
  have hevict : ∀ (fifo : List Id) (tr : Tree), ∃ reused fifo',
      tr.evict fifo = { tr with reused := reused, reuseFifo := fifo' } ∧
        ∀ (a' : Id) x, reused[a']? = some x → tr.reused[a']? = some x := by
    intro fifo
    induction fifo with
    | nil => exact fun tr => ⟨tr.reused, [], rfl, fun _ _ h => h⟩
    | cons old rest ih =>
      intro tr
      simp only [evict]
      split
      · obtain ⟨reused, fifo', heq, hsub⟩ := ih { tr with reuseFifo := old :: rest, reused := tr.reused.erase old }
        refine ⟨reused, fifo', heq, fun a' x hx => ?_⟩
        have := hsub a' x hx
        rw [Maps.get_erase] at this
        split at this
        · simp at this
        · exact this
      · exact ⟨tr.reused, old :: rest, rfl, fun _ _ h => h⟩
  unfold reuse
  split
  · exact ⟨tr.reused, tr.reuseFifo, rfl, fun _ _ h => .inl h⟩
  · obtain ⟨reused, fifo', heq, hsub⟩ := hevict tr.reuseFifo tr
    rw [heq]
    refine ⟨_, _, rfl, fun a' x hx => ?_⟩
    rw [Maps.get_insert] at hx
    split at hx
    · next haa => exact .inr ⟨haa.symm, (Option.some.inj hx).symm⟩
    · exact .inl (hsub a' x hx)

variable [P : Primitives]

theorem address_entrance (tr : Tree) (scope : UInt8) (e : Id × Nat) :
    tr.address scope e.1 e.2 = nodeAddress tr.crypto scope e := rfl

def rowNode (crypto : Crypto) (scope : UInt8) (address : Id) (raw : Bytes) : Option Node :=
  ((crypto.openNode scope address raw).bind Node.decode).toOption

def view (tr : Tree) (scope : UInt8) (address : Id) : Option Node :=
  match tr.changed[address]? with
  | some none => none
  | some (some _) => tr.decoded[address]?.map Prod.fst
  | none => tr.table[address]?.bind (rowNode tr.crypto scope address)

/-- A row will stand at the address once the overlay is published. -/
def Live (tr : Tree) (address : Id) : Prop :=
  match tr.changed[address]? with
  | some planned => planned ≠ none
  | none => tr.table[address]? ≠ none

open Classical in
noncomputable def memory (K : Set Id) (tr : Tree) (scope : UInt8) : Memory 256 Node := fun e =>
  if Known K e then tr.view scope (nodeAddress tr.crypto scope e) else none

/-- A verified node: what the overlay shows at its address, with the summary it was verified for. -/
structure Proved (K : Set Id) (tr : Tree) (address : Id) (scope : UInt8) (n : Node) (s : Summary) : Prop where
  known : ∃ e, Known K e ∧ address = nodeAddress tr.crypto scope e
  shown : tr.view scope address = some n
  summary : n.summary tr.crypto scope = .ok s
  wf : n.Wf

/-- The maps of the overlay are in step with one another and with the table. -/
structure Sound (K : Set Id) (tr : Tree) : Prop where
  /-- planned insertions are the pending nodes, and each has its reserved place -/
  pending : ∀ a, a ∈ tr.pendingScopes ↔ ∃ raw, tr.changed[a]? = some (some raw)
  placeholder : ∀ a scope, tr.pendingScopes[a]? = some scope → ∃ n s, tr.decoded[a]? = some (n, s) ∧
    tr.changed[a]? = some (some (List.replicate (n.encode.length + 41) 0)) ∧
    Proved K tr a scope n s
  decoded : ∀ a n s, tr.decoded[a]? = some (n, s) → ∃ scope, Proved K tr a scope n s
  reused : ∀ a scope n s, tr.reused[a]? = some (scope, n, s) → Proved K tr a scope n s
  live : ∀ a, tr.Live a → ∃ scope e n, Known K e ∧ a = nodeAddress tr.crypto scope e ∧ tr.view scope a = some n
  plan : tr.planBytes ≤ maxPlan
  cache : tr.decoded.size * tr.layout.decodedEntry ≤ maxPlan

/-- A step that reads only: the plan and the pending nodes are as before. -/
structure Reads (tr tr' : Tree) : Prop where
  table : tr'.table = tr.table
  crypto : tr'.crypto = tr.crypto
  layout : tr'.layout = tr.layout
  changed : tr'.changed = tr.changed
  pendingScopes : tr'.pendingScopes = tr.pendingScopes
  planBytes : tr'.planBytes = tr.planBytes
  shown : ∀ scope a, tr'.view scope a = tr.view scope a

variable {K : Set Id} {tr tr' tr'' : Tree}

theorem Reads.refl (tr : Tree) : Reads tr tr := ⟨rfl, rfl, rfl, rfl, rfl, rfl, fun _ _ => rfl⟩

theorem Reads.trans (h : Reads tr tr') (h' : Reads tr' tr'') : Reads tr tr'' :=
  ⟨h'.table.trans h.table, h'.crypto.trans h.crypto, h'.layout.trans h.layout,
    h'.changed.trans h.changed, h'.pendingScopes.trans h.pendingScopes,
    h'.planBytes.trans h.planBytes, fun scope a => (h'.shown scope a).trans (h.shown scope a)⟩

theorem Reads.memory (h : Reads tr tr') : memory K tr' = memory K tr := by
  funext scope e
  simp only [Tree.memory, h.crypto, h.shown]

theorem Reads.live (h : Reads tr tr') (a : Id) : tr'.Live a ↔ tr.Live a := by
  simp only [Live, h.changed, h.table]

theorem Reads.proved (h : Reads tr tr') : Proved K tr' a scope n s ↔ Proved K tr a scope n s := by
  constructor
  · rintro ⟨h1, h2, h3, h4⟩
    rw [h.crypto] at h1 h3
    rw [h.shown] at h2
    exact ⟨h1, h2, h3, h4⟩
  · rintro ⟨h1, h2, h3, h4⟩
    refine ⟨?_, ?_, ?_, h4⟩
    · rw [h.crypto]; exact h1
    · rw [h.shown]; exact h2
    · rw [h.crypto]; exact h3

theorem memory_known (he : Known K e) :
    memory K tr scope e = tr.view scope (nodeAddress tr.crypto scope e) := if_pos he

theorem known_of_memory (h : memory K tr scope e = some n) : Known K e := by
  by_contra hk
  rw [memory, if_neg hk] at h
  simp at h

theorem reads_remember (n : Node) (s : Summary) (ha : ∀ raw, tr.changed[a]? ≠ some (some raw)) :
    Reads tr { tr with decoded := tr.decoded.insert a (n, s) } := by
  refine ⟨rfl, rfl, rfl, rfl, rfl, rfl, fun scope a' => ?_⟩
  unfold view
  by_cases haa : a' = a
  · subst haa
    rcases hc : tr.changed[a']? with _ | _ | raw
    · rfl
    · rfl
    · exact absurd hc (ha raw)
  · simp only [Maps.get_insert_of_ne _ _ haa]

theorem Sound.of_reads (hs : Sound K tr) (h : Reads tr tr')
    (hpend : ∀ a ∈ tr.pendingScopes, tr'.decoded[a]? = tr.decoded[a]?)
    (hdec : ∀ a n s, tr'.decoded[a]? = some (n, s) → tr.decoded[a]? = some (n, s) ∨ ∃ scope, Proved K tr a scope n s)
    (hreu : ∀ a scope n s, tr'.reused[a]? = some (scope, n, s) →
      tr.reused[a]? = some (scope, n, s) ∨ Proved K tr a scope n s)
    (hcache : tr'.decoded.size * tr.layout.decodedEntry ≤ maxPlan) : Sound K tr' := by
  refine ⟨?_, ?_, ?_, ?_, ?_, ?_, ?_⟩
  · rw [h.changed, h.pendingScopes]
    exact hs.pending
  · intro a scope ha
    rw [h.pendingScopes] at ha
    obtain ⟨n, s, hd, hc, hp⟩ := hs.placeholder a scope ha
    have hmem : a ∈ tr.pendingScopes := (Maps.mem_iff _ a).mpr ⟨scope, ha⟩
    refine ⟨n, s, (hpend a hmem).trans hd, ?_, h.proved.mpr hp⟩
    rw [h.changed, hc]
  · intro a n s hd
    rcases hdec a n s hd with hold | ⟨scope, hp⟩
    · obtain ⟨scope, hp⟩ := hs.decoded a n s hold
      exact ⟨scope, h.proved.mpr hp⟩
    · exact ⟨scope, h.proved.mpr hp⟩
  · intro a scope n s hr
    rcases hreu a scope n s hr with hold | hp
    · exact h.proved.mpr (hs.reused a scope n s hold)
    · exact h.proved.mpr hp
  · intro a hl
    obtain ⟨scope, e, n, he, ha, hv⟩ := hs.live a ((h.live a).mp hl)
    exact ⟨scope, e, n, he, by rw [h.crypto]; exact ha, (h.shown scope a).trans hv⟩
  · rw [h.planBytes]
    exact hs.plan
  · rw [h.layout]
    exact hcache

theorem Sound.not_pending (hs : Sound K tr) (hnew : tr.decoded[a]? = none) (raw : Bytes) :
    tr.changed[a]? ≠ some (some raw) := by
  intro hraw
  have hmem := (hs.pending a).mpr ⟨raw, hraw⟩
  obtain ⟨n, s, hd, _⟩ := hs.placeholder a _ (Std.TreeMap.getElem?_eq_some_getElem hmem)
  rw [hnew] at hd
  simp at hd

theorem Sound.remember (hs : Sound K tr) (hp : Proved K tr a scope n s) (hnew : tr.decoded[a]? = none)
    (h : tr.remember a n s = .ok tr') : Sound K tr' ∧ Reads tr tr' := by
  obtain ⟨rfl, hcap⟩ := remember_eq_ok h
  have hreads := reads_remember n s (hs.not_pending hnew)
  refine ⟨hs.of_reads hreads ?_ ?_ (fun _ _ _ _ hr => .inl hr) ?_, hreads⟩
  · intro a' ha'
    obtain ⟨raw, hraw⟩ := (hs.pending a').mp ha'
    have hne : a' ≠ a := by
      rintro rfl
      exact hs.not_pending hnew raw hraw
    exact Maps.get_insert_of_ne _ _ hne
  · intro a' n' s' hd
    rw [Maps.get_insert] at hd
    split at hd
    · next haa =>
      obtain ⟨rfl, rfl⟩ := Prod.mk.inj (Option.some.inj hd)
      exact .inr ⟨scope, haa ▸ hp⟩
    · exact .inl hd
  · change (tr.decoded.insert a (n, s)).size * _ ≤ maxPlan
    rw [Maps.size_insert_of_none _ _ hnew]
    exact hcap.resolve_left ((Maps.not_mem_iff _ a).mpr hnew)

theorem Sound.reuse (hs : Sound K tr) (hp : Proved K tr a scope n s) :
    Sound K (tr.reuse a scope n s) ∧ Reads tr (tr.reuse a scope n s) := by
  obtain ⟨reused, fifo, heq, hsub⟩ := reuse_spec tr a scope n s
  rw [heq]
  have hreads : Reads tr { tr with reused := reused, reuseFifo := fifo } :=
    ⟨rfl, rfl, rfl, rfl, rfl, rfl, fun _ _ => rfl⟩
  refine ⟨hs.of_reads hreads (fun _ _ => rfl) (fun _ _ _ hd => .inl hd) ?_ hs.cache, hreads⟩
  intro a' scope' n' s' hr
  rcases hsub a' _ hr with hold | ⟨rfl, hx⟩
  · exact .inl hold
  · obtain ⟨rfl, rfl, rfl⟩ := hx
    exact .inr hp

theorem Proved.scope_eq (hK : CollisionFree tr.crypto K) {scope' : UInt8} (he : Known K e)
    (h : Proved K tr (nodeAddress tr.crypto scope e) scope' n s) : scope' = scope := by
  obtain ⟨e', he', haddr⟩ := h.known
  exact ((hK he he' haddr).1).symm

theorem Sound.view_of_rawAt (hs : Sound K tr) {raw plain : Bytes} (hnew : tr.decoded[a]? = none) (hraw : tr.rawAt a = .ok raw)
    (hopen : tr.crypto.openNode scope a raw = .ok plain) (hdec : Node.decode plain = .ok n) :
    tr.view scope a = some n := by
  rcases hc : tr.changed[a]? with _ | _ | planned
  · simp only [rawAt, hc, ok_iff] at hraw
    obtain ⟨_, hrow, _, _, rfl⟩ := hraw
    simp only [view, hc, hrow, Option.bind_some, rowNode, hopen, Except.bind, hdec]
    rfl
  · simp only [rawAt, hc, ok_iff] at hraw
    simp at hraw
  · exact absurd hc (hs.not_pending hnew planned)

/-- A load returns the node the overlay shows, with the expected summary. -/
theorem Sound.load (hs : Sound K tr) (hK : CollisionFree tr.crypto K) {expected : Summary} (he : Known K e)
    (h : tr.load scope e expected = .ok (n, tr')) :
    Sound K tr' ∧ Reads tr tr' ∧ memory K tr scope e = some n ∧ n.summary tr.crypto scope = .ok expected := by
  have hmem : memory K tr scope e = _ := memory_known he
  simp only [Tree.load, ok_iff, address_entrance] at h
  obtain ⟨_, _, h⟩ := h
  split at h
  · next node summary hd =>
    simp only [ok_iff, Prod.mk.injEq, not_not] at h
    obtain ⟨_, rfl, rfl, rfl⟩ := h
    obtain ⟨scope', hp⟩ := hs.decoded _ _ _ hd
    obtain rfl := hp.scope_eq hK he
    exact ⟨hs, Reads.refl tr, hmem.trans hp.shown, hp.summary⟩
  · next hd =>
    split at h
    · next provedScope node summary hr =>
      simp only [ok_iff, Prod.mk.injEq, not_or, not_not] at h
      obtain ⟨_, ⟨rfl, rfl⟩, t, ht, rfl, rfl⟩ := h
      have hp := hs.reused _ _ _ _ hr
      obtain ⟨hs', hreads⟩ := hs.remember hp hd ht
      exact ⟨hs', hreads, hmem.trans hp.shown, hp.summary⟩
    · simp only [ok_iff, Prod.mk.injEq, not_not] at h
      obtain ⟨raw, hraw, plain, hopen, m, hdec, _, _, s, hsum, _, rfl, t, ht, rfl, rfl⟩ := h
      have hp : Proved K tr (nodeAddress tr.crypto scope e) scope m s :=
        ⟨⟨e, he, rfl⟩, hs.view_of_rawAt hd hraw hopen hdec, hsum, Node.wf_of_decode hdec⟩
      obtain ⟨hs', hreads⟩ := hs.remember hp hd ht
      obtain ⟨hs'', hreads'⟩ := hs'.reuse (hreads.proved.mpr hp)
      exact ⟨hs'', hreads.trans hreads', hmem.trans hp.shown, hsum⟩

theorem Sound.clearReadProofs (hs : Sound K tr) : Sound K tr.clearReadProofs ∧ Reads tr tr.clearReadProofs := by
  have hget : ∀ a : Id, tr.clearReadProofs.decoded[a]? = tr.decoded[a]?.filter fun _ => tr.pendingScopes.contains a :=
    fun a => Std.TreeMap.getElem?_filter'
  have hpend : ∀ a ∈ tr.pendingScopes, tr.clearReadProofs.decoded[a]? = tr.decoded[a]? := by
    intro a ha
    rw [hget, Std.TreeMap.mem_iff_contains.mp ha]
    cases tr.decoded[a]? <;> rfl
  have hreads : Reads tr tr.clearReadProofs := by
    refine ⟨rfl, rfl, rfl, rfl, rfl, rfl, fun scope a => ?_⟩
    have hc : tr.clearReadProofs.changed = tr.changed := rfl
    rcases hca : tr.changed[a]? with _ | _ | raw
    · simp only [view, hc, hca]
      rfl
    · simp only [view, hc, hca]
    · simp only [view, hc, hca, hpend a ((hs.pending a).mpr ⟨raw, hca⟩)]
  refine ⟨hs.of_reads hreads hpend (fun a n s hd => .inl ?_) (fun _ _ _ _ hr => .inl hr) ?_, hreads⟩
  · rw [hget] at hd
    exact (Option.filter_eq_some_iff.mp hd).1
  · exact (Nat.mul_le_mul_right _ Std.TreeMap.size_filter_le_size).trans hs.cache

theorem Sound.enableReadReuse (hs : Sound K tr) : Sound K tr.enableReadReuse ∧ Reads tr tr.enableReadReuse := by
  have hreads : Reads tr tr.enableReadReuse := ⟨rfl, rfl, rfl, rfl, rfl, rfl, fun _ _ => rfl⟩
  exact ⟨hs.of_reads hreads (fun _ _ => rfl) (fun _ _ _ hd => .inl hd) (fun _ _ _ _ hr => .inl hr) hs.cache, hreads⟩

end Tree
end Kilogram.Index
