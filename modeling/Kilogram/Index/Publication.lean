import Kilogram.Index.Session

/-!
# Publication

Sealing the pending nodes and writing every planned change turns a table that stores exactly the
nodes of a forest into a table that stores exactly the nodes of the new forest.
-/

namespace Kilogram.Index
open Radix
open List (mem_append mem_cons mem_map mem_singleton)
section
variable [P : Primitives]

/-- The rows of a scope: the entrances of its tree with their nodes. -/
def Shape.rows (crypto : Crypto) (scope : UInt8) (t : Shape) : List ((Id × Nat) × Node) :=
  Trie.rows (Shape.node crypto scope) 0 0 t

/-- The table stores exactly the nodes of the forest. -/
structure Published (K : Set Id) (crypto : Crypto) (table : Std.TreeMap Id Bytes) (f : Forest) : Prop where
  valid : ∀ scope t, f scope = some t → t.Valid 0 0 ∧ t.KeysIn K ∧ t.Fits
  stored : ∀ scope t row, f scope = some t → row ∈ t.rows crypto scope →
    ∃ raw, table[nodeAddress crypto scope row.1]? = some raw ∧
      Tree.rowNode crypto scope (nodeAddress crypto scope row.1) raw = some row.2
  exact : ∀ (a : Id) raw, table[a]? = some raw → ∃ scope t row, f scope = some t ∧
    row ∈ t.rows crypto scope ∧ a = nodeAddress crypto scope row.1

variable {K : Set Id} {crypto : Crypto} {table : Std.TreeMap Id Bytes} {f : Forest}
variable {t : Shape} {scope : UInt8} {e : Id × Nat} {s : Summary} {n : Node}
  {nonces : Id → Option Nonce}

theorem Shape.KeysIn.row (h : t.KeysIn K) (hv : t.Valid 0 0)
    {row : (Id × Nat) × Node} (hr : row ∈ t.rows crypto scope) : Known K row.1 := by
  have hmem : row.1 ∈ (0, 0) :: t.inner := by
    rw [← Trie.rows_entrances (Shape.node crypto scope)]
    exact List.mem_map_of_mem (f := Prod.fst) hr
  obtain ⟨x, hx, hcut⟩ := hv.entrance_of_leaf hmem
  exact ⟨(hv.entrance_below hmem).2.1, x.1, h x hx, hcut⟩

theorem view_new (layout : Layout) (scope : UInt8) (a : Id) : (Tree.new table crypto layout).view scope a =
      table[a]?.bind (Tree.rowNode crypto scope a) := by
  simp [Tree.view, Tree.new]

/-! ## Reachability

What a table stores below a root is told by following the summaries, as every load does. -/

/-- The table row at the entrance passes every check of a load with this summary. -/
def Verified (crypto : Crypto) (table : Std.TreeMap Id Bytes) (scope : UInt8) (e : Id × Nat)
    (expected : Summary) (n : Node) : Prop :=
  expected.count ≠ 0 ∧ table[nodeAddress crypto scope e]?.bind
      (Tree.rowNode crypto scope (nodeAddress crypto scope e)) = some n ∧
    e.2 ≤ n.bits ∧ prefixOf n.pfx e.2 = e.1 ∧ n.summary crypto scope = .ok expected

/-- A node reached from an entrance and its summary. -/
inductive Reach (crypto : Crypto) (table : Std.TreeMap Id Bytes) (scope : UInt8) :
    Id × Nat → Summary → (Id × Nat) × Node → Prop
  | here {e : Id × Nat} {s : Summary} {n : Node} (h : Verified crypto table scope e s n) :
      Reach crypto table scope e s (e, n)
  | down {e : Id × Nat} {s left right : Summary} {n : Node} {row : (Id × Nat) × Node} (b : Bool)
      (h : Verified crypto table scope e s n) (hbody : n.body = .branch left right)
      (hrow : Reach crypto table scope (child n b) (if b then right else left) row) :
      Reach crypto table scope e s row

/-- No node is missing below an entrance. -/
inductive Intact (crypto : Crypto) (table : Std.TreeMap Id Bytes) (scope : UInt8) : Id × Nat → Summary → Prop
  | leaf {e : Id × Nat} {s : Summary} {n : Node} {hash : Id} {length charge reserved : UInt64}
      {owner : UInt8} (h : Verified crypto table scope e s n)
      (hbody : n.body = .leaf hash length charge reserved owner) : Intact crypto table scope e s
  | branch {e : Id × Nat} {s left right : Summary} {n : Node}
      (h : Verified crypto table scope e s n) (hbody : n.body = .branch left right)
      (hl : Intact crypto table scope (child n false) left)
      (hr : Intact crypto table scope (child n true) right) : Intact crypto table scope e s

/-- The table stores exactly the nodes reachable from the roots. -/
structure StoresExactly (crypto : Crypto) (table : Std.TreeMap Id Bytes) (roots : UInt8 → Summary) : Prop where
  intact : ∀ scope, roots scope = Summary.default ∨ Intact crypto table scope (0, 0) (roots scope)
  only : ∀ a ∈ table, ∃ scope row, Reach crypto table scope (0, 0) (roots scope) row ∧
    a = nodeAddress crypto scope row.1

theorem not_reach_default {row : (Id × Nat) × Node} : ¬ Reach crypto table scope e Summary.default row := by
  intro hr
  cases hr with
  | here h | down b h _ _ => exact h.1 rfl

theorem storesExactly_empty (crypto : Crypto) : StoresExactly crypto ∅ fun _ => Summary.default :=
  ⟨fun _ => .inl rfl, fun _ ha => absurd ha Std.TreeMap.not_mem_emptyc⟩

theorem Verified.unique {n' : Node}
    (h : Verified crypto table scope e s n) (h' : Verified crypto table scope e s n') : n = n' :=
  Option.some.inj (h.2.1.symm.trans h'.2.1)

theorem Verified.wf (h : Verified crypto table scope e s n) : n.Wf := by
  obtain ⟨raw, _, hraw⟩ := Option.bind_eq_some_iff.mp h.2.1
  unfold Tree.rowNode at hraw
  cases hopen : crypto.openNode scope (nodeAddress crypto scope e) raw with
  | error _ =>
    rw [hopen] at hraw
    exact absurd hraw (by simp [Except.bind, Except.toOption])
  | ok plain =>
    rw [hopen] at hraw
    cases hdec : Node.decode plain with
    | error _ => exact absurd hraw (by simp [Except.bind, Except.toOption, hdec])
    | ok m =>
      simp only [Except.bind, Except.toOption, hdec, Option.some.injEq] at hraw
      exact hraw ▸ Node.wf_of_decode hdec

theorem reach_leaf_iff {hash : Id}
    {length charge reserved : UInt64} {owner : UInt8} (h : Verified crypto table scope e s n)
    (hbody : n.body = .leaf hash length charge reserved owner) (row : (Id × Nat) × Node) :
    Reach crypto table scope e s row ↔ row = (e, n) := by
  constructor
  · intro hr
    cases hr with
    | here h' => rw [h.unique h']
    | down b h' hbody' _ =>
      rw [← h.unique h', hbody] at hbody'
      simp at hbody'
  · rintro rfl
    exact Reach.here h

theorem reach_branch_iff {left right : Summary}
    (h : Verified crypto table scope e s n) (hbody : n.body = .branch left right)
    (row : (Id × Nat) × Node) : Reach crypto table scope e s row ↔ row = (e, n) ∨
      Reach crypto table scope (child n false) left row ∨
      Reach crypto table scope (child n true) right row := by
  constructor
  · intro hr
    cases hr with
    | here h' => exact .inl (by rw [h.unique h'])
    | down b h' hbody' hrow =>
      rw [← h.unique h'] at hbody' hrow
      obtain ⟨rfl, rfl⟩ := Body.branch.inj (hbody.symm.trans hbody')
      cases b with
      | false => exact .inr (.inl hrow)
      | true => exact .inr (.inr hrow)
  · rintro (rfl | hr | hr)
    · exact Reach.here h
    · exact Reach.down false h hbody hr
    · exact Reach.down true h hbody hr

theorem Intact.shape (h : Intact crypto table scope e s) : ∃ t : Shape, t.Valid e.1 e.2 ∧ t.Fits ∧
      s = t.summary crypto scope ∧
      ∀ row, Reach crypto table scope e s row ↔ row ∈ Trie.rows (Shape.node crypto scope) e.1 e.2 t := by
  induction h with
  | @leaf e s n hash length charge reserved owner h hbody =>
    have hwf := h.wf
    obtain ⟨pfx, bits, body⟩ := n
    subst hbody
    obtain ⟨_, rfl, howner, hlength, hcharge⟩ := hwf
    let v : Payload := ⟨hash, length, reserved, owner, hlength, howner⟩
    have hnode : (⟨pfx, 256, .leaf hash length charge reserved owner⟩ : Node) = v.node pfx := by
      have hc : charge = length + 41 + 32 + UInt64.ofNat (2 * nodeCap) :=
        UInt64.toNat_inj.mp (hcharge.trans v.toNat_charge.symm)
      rw [hc]
      rfl
    have hsum := h.2.2.2.2
    rw [hnode, Shape.summary_leaf] at hsum
    refine ⟨.leaf pfx v, ⟨h.2.2.1, h.2.2.2.1⟩, Shape.fits_leaf pfx v, (Except.ok.inj hsum).symm, fun row => ?_⟩
    rw [reach_leaf_iff h rfl, hnode]
    exact mem_singleton.symm
  | @branch e s left right n h hbody _ _ ihl ihr =>
    have hwf := h.wf
    obtain ⟨pfx, bits, body⟩ := n
    subst hbody
    obtain ⟨hpfx, hbits, _⟩ := hwf
    obtain ⟨l, hlv, hlf, rfl, hlr⟩ := ihl
    obtain ⟨r, hrv, hrf, rfl, hrr⟩ := ihr
    obtain ⟨hfits, hsum⟩ := (Shape.summary_branch_iff (q := pfx) (b := bits) hlf hrf s).mp
      h.2.2.2.2
    refine ⟨.branch pfx bits l r, ⟨h.2.2.1, hbits, h.2.2.2.1, hpfx, hlv, hrv⟩, hfits, hsum, fun row => ?_⟩
    rw [reach_branch_iff h rfl, hlr row, hrr row, Trie.rows, mem_cons, mem_append]
    rfl

theorem intact_of_rows {p : Id} {n : Nat} (hv : t.Valid p n) (hf : t.Fits)
    (hrow : ∀ row ∈ Trie.rows (Shape.node crypto scope) p n t, table[nodeAddress crypto scope row.1]?.bind
        (Tree.rowNode crypto scope (nodeAddress crypto scope row.1)) = some row.2) :
    Intact crypto table scope (p, n) (t.summary crypto scope) ∧
      ∀ row, Reach crypto table scope (p, n) (t.summary crypto scope) row ↔
        row ∈ Trie.rows (Shape.node crypto scope) p n t := by
  induction t generalizing p n with
  | leaf key v =>
    have htop : Verified crypto table scope (p, n) (Shape.summary crypto scope (.leaf key v)) (v.node key) :=
      ⟨Shape.summary_count_ne_zero hf, hrow ((p, n), v.node key) (mem_singleton.mpr rfl),
        hv.1, hv.2, Shape.summary_leaf key v⟩
    refine ⟨Intact.leaf htop (v.body_node key), fun row => ?_⟩
    rw [reach_leaf_iff htop (v.body_node key)]
    exact mem_singleton.symm
  | branch q b l r ihl ihr =>
    have htop : Verified crypto table scope (p, n) (Shape.summary crypto scope (.branch q b l r))
        (Shape.node crypto scope (.branch q b l r)) :=
      ⟨Shape.summary_count_ne_zero hf, hrow ((p, n), Shape.node crypto scope (.branch q b l r)) (.head _ ..), hv.1,
        hv.2.2.1, Shape.summary_node hf⟩
    obtain ⟨hil, hrl⟩ := ihl hv.2.2.2.2.1 hf.sides.1 fun row hr =>
      hrow row (.tail _ (List.mem_append_left _ hr))
    obtain ⟨hir, hrr⟩ := ihr hv.2.2.2.2.2 hf.sides.2 fun row hr =>
      hrow row (.tail _ (List.mem_append_right _ hr))
    refine ⟨Intact.branch htop rfl hil hir, fun row => ?_⟩
    rw [reach_branch_iff htop rfl, Trie.rows, mem_cons, mem_append, ← hrl row, ← hrr row]
    rfl

theorem leaf_row (crypto : Crypto) (scope : UInt8) (p : Id) (n : Nat) {x : Id × Payload}
    (hx : x ∈ t.leaves) : ∃ row ∈ Trie.rows (Shape.node crypto scope) p n t, row.2.bits = 256 ∧ row.2.pfx = x.1 := by
  induction t generalizing p n with
  | leaf key v =>
    rw [mem_singleton.mp hx]
    exact ⟨((p, n), v.node key), mem_singleton.mpr rfl, rfl, rfl⟩
  | branch q b l r ihl ihr =>
    rcases mem_append.mp hx with hx | hx
    · obtain ⟨row, hr, h⟩ := ihl q (b + 1) hx
      exact ⟨row, .tail _ (List.mem_append_left _ hr), h⟩
    · obtain ⟨row, hr, h⟩ := ihr (mark q b) (b + 1) hx
      exact ⟨row, .tail _ (List.mem_append_right _ hr), h⟩

theorem Reach.read {row : (Id × Nat) × Node}
    (h : Reach crypto table scope e s row) : table[nodeAddress crypto scope row.1]?.bind
      (Tree.rowNode crypto scope (nodeAddress crypto scope row.1)) = some row.2 := by
  induction h with
  | here h => exact h.2.1
  | down b h hbody _ ih => exact ih

variable {roots : UInt8 → Summary} {tr tr' : Tree} {raw : Bytes}

theorem StoresExactly.published (h : StoresExactly crypto table roots)
    (hkeys : ∀ scope row, Reach crypto table scope (0, 0) (roots scope) row → row.2.bits = 256 → row.2.pfx ∈ K) :
    ∃ f, Published K crypto table f ∧ ∀ scope, roots scope = Shape.summaryOption crypto scope (f scope) := by
  have hscope : ∀ scope, ∃ t : Option Shape, roots scope = Shape.summaryOption crypto scope t ∧
      (∀ x, t = some x → x.Valid 0 0 ∧ x.Fits) ∧
      ∀ row, Reach crypto table scope (0, 0) (roots scope) row ↔ ∃ x, t = some x ∧ row ∈ x.rows crypto scope := by
    intro scope
    rcases h.intact scope with hroot | hroot
    · refine ⟨none, hroot, fun x hx => absurd hx (by simp), fun row => ⟨fun hr => ?_, ?_⟩⟩
      · rw [hroot] at hr
        exact absurd hr not_reach_default
      · rintro ⟨x, hx, _⟩
        simp at hx
    · obtain ⟨t, hv, hf, hsum, hreach⟩ := hroot.shape
      refine ⟨some t, hsum, fun x hx => Option.some.inj hx ▸ ⟨hv, hf⟩, fun row => ?_⟩
      rw [hreach row]
      constructor
      · exact fun hr => ⟨t, rfl, hr⟩
      · rintro ⟨x, hx, hr⟩
        exact Option.some.inj hx ▸ hr
  choose f hroots hvalid hreach using hscope
  refine ⟨f, ⟨fun scope t hf => ?_, fun scope t row hf hr => ?_, fun a raw ha => ?_⟩, hroots⟩
  · refine ⟨(hvalid scope t hf).1, fun x hx => ?_, (hvalid scope t hf).2⟩
    obtain ⟨row, hr, hbits, hpfx⟩ := leaf_row crypto scope 0 0 hx
    exact hpfx ▸ hkeys scope row ((hreach scope row).mpr ⟨t, hf, hr⟩) hbits
  · exact Option.bind_eq_some_iff.mp ((hreach scope row).mpr ⟨t, hf, hr⟩).read
  · obtain ⟨scope, row, hr, haddr⟩ := h.only a ((Maps.mem_iff _ a).mpr ⟨raw, ha⟩)
    obtain ⟨t, hf, hrow⟩ := (hreach scope row).mp hr
    exact ⟨scope, t, row, hf, hrow, haddr⟩

theorem Published.read (h : Published K crypto table f)
    {row : (Id × Nat) × Node} (hf : f scope = some t) (hr : row ∈ t.rows crypto scope) :
    table[nodeAddress crypto scope row.1]?.bind
      (Tree.rowNode crypto scope (nodeAddress crypto scope row.1)) = some row.2 := by
  obtain ⟨raw, hraw, hnode⟩ := h.stored scope t row hf hr
  rw [hraw, Option.bind_some, hnode]

theorem Published.reach_iff (h : Published K crypto table f) (scope : UInt8) (row : (Id × Nat) × Node) :
    Reach crypto table scope (0, 0) (Shape.summaryOption crypto scope (f scope)) row ↔
      ∃ t, f scope = some t ∧ row ∈ t.rows crypto scope := by
  cases hf : f scope with
  | none =>
    refine ⟨fun hr => absurd hr not_reach_default, ?_⟩
    rintro ⟨t, ht, _⟩
    simp at ht
  | some t =>
    obtain ⟨hv, _, hfits⟩ := h.valid scope t hf
    have hin := intact_of_rows hv hfits fun row hr => h.read hf hr
    refine (hin.2 row).trans ⟨fun hr => ⟨t, rfl, hr⟩, ?_⟩
    rintro ⟨t', ht', hr⟩
    exact Option.some.inj ht' ▸ hr

theorem Published.storesExactly (h : Published K crypto table f) :
    StoresExactly crypto table fun scope => Shape.summaryOption crypto scope (f scope) := by
  refine ⟨fun scope => ?_, fun a ha => ?_⟩
  · cases hf : f scope with
    | none => exact .inl rfl
    | some t =>
      obtain ⟨hv, _, hfits⟩ := h.valid scope t hf
      exact .inr (intact_of_rows hv hfits fun row hr => h.read hf hr).1
  · obtain ⟨raw, hraw⟩ := (Maps.mem_iff _ a).mp ha
    obtain ⟨scope, t, row, hf, hr, haddr⟩ := h.exact a raw hraw
    exact ⟨scope, row, (h.reach_iff scope row).mpr ⟨t, hf, hr⟩, haddr⟩

theorem Published.start (h : Published K crypto table f) (hK : CollisionFree crypto K) (layout : Layout)
    (hroots : ∀ scope, roots scope = Shape.summaryOption crypto scope (f scope)) :
    (Session.start table crypto layout roots).Represents K f := by
  have hrow : ∀ scope t row, f scope = some t → row ∈ t.rows crypto scope →
      (Tree.new table crypto layout).view scope (nodeAddress crypto scope row.1) = some row.2 := by
    intro scope t row hf hr
    obtain ⟨raw, hraw, hnode⟩ := h.stored scope t row hf hr
    rw [view_new, hraw, Option.bind_some, hnode]
  have hsound : Tree.Sound K (Tree.new table crypto layout) := by
    refine ⟨?_, ?_, ?_, ?_, fun a hl => ?_, Nat.zero_le _, ?_⟩
    · intro a
      simp [Tree.new]
    · intro a scope hp
      simp [Tree.new] at hp
    · intro a n s hd
      simp [Tree.new] at hd
    · intro a scope n s hr
      simp [Tree.new] at hr
    · have hne : table[a]? ≠ none := by simpa [Tree.Live, Tree.new] using hl
      obtain ⟨raw, hraw⟩ := Option.ne_none_iff_exists'.mp hne
      obtain ⟨scope, t, row, hf, hr, rfl⟩ := h.exact a raw hraw
      obtain ⟨hv, hkeys, _⟩ := h.valid scope t hf
      exact ⟨scope, row.1, row.2, hkeys.row hv hr, rfl, hrow scope t row hf hr⟩
    · simp [Tree.new]
  refine ⟨hsound, hK, fun scope => ?_, h.valid, hroots⟩
  -- an entrance that is not in the scope's tree has no row: the only rows are those of trees
  have helse : ∀ e, (∀ t, f scope = some t → e ∉ (0, 0) :: t.inner) →
      Tree.memory K (Tree.new table crypto layout) scope e = none := by
    intro e hne
    by_cases he : Known K e
    · rw [Tree.memory_known he]
      change (Tree.new table crypto layout).view scope (nodeAddress crypto scope e) = none
      rw [view_new]
      cases hraw : table[nodeAddress crypto scope e]? with
      | none => rfl
      | some raw =>
        obtain ⟨scope', t, row, hf, hr, haddr⟩ := h.exact _ raw hraw
        obtain ⟨hv, hkeys, _⟩ := h.valid scope' t hf
        obtain ⟨rfl, rfl⟩ := hK he (hkeys.row hv hr) haddr
        refine absurd ?_ (hne t hf)
        rw [← Trie.rows_entrances (Shape.node crypto scope)]
        exact List.mem_map_of_mem (f := Prod.fst) hr
    · rw [Tree.memory, if_neg he]
  change Trie.LaysOption (Shape.node crypto scope) _ 0 0 (f scope)
  cases hf : f scope with
  | none =>
    intro e _
    exact helse e fun t ht => absurd (hf.symm.trans ht) (by simp)
  | some t =>
    obtain ⟨hv, hkeys, _⟩ := h.valid scope t hf
    refine Trie.lays_of_rows hv (fun row hr => ?_) fun e _ hm => ?_
    · rw [Tree.memory_known (hkeys.row hv hr)]
      exact hrow scope t row hf hr
    · refine helse e fun t' ht' => ?_
      cases hf.symm.trans ht'
      exact hm

theorem Tree.sealChange_eq_ok {x : Id × UInt8}
    (h : Tree.sealChange nonces tr x = .ok tr') : ∃ n s raw, tr.decoded[x.1]? = some (n, s) ∧
      tr.crypto.sealNode (nonces x.1) x.2 x.1 n.encode = .ok raw ∧ raw.length ≤ nodeCap ∧
      tr' = { tr with changed := tr.changed.insert x.1 (some raw) } := by
  simp only [Tree.sealChange, Except.ok_iff, Prod.exists, not_or, not_lt] at h
  obtain ⟨n, s, hd, raw, hseal, _, _, _, hcap, rfl⟩ := h
  exact ⟨n, s, raw, hd, hseal, hcap.2, rfl⟩

theorem Tree.sealList {l : List (Id × UInt8)}
    (hnodup : (l.map Prod.fst).Nodup) (h : l.foldlM (Tree.sealChange nonces) tr = .ok tr') :
    tr'.table = tr.table ∧ tr'.crypto = tr.crypto ∧
      (∀ a : Id, (∀ scope, (a, scope) ∉ l) → tr'.changed[a]? = tr.changed[a]?) ∧
      ∀ x ∈ l, ∃ n s raw, tr.decoded[x.1]? = some (n, s) ∧
        tr.crypto.sealNode (nonces x.1) x.2 x.1 n.encode = .ok raw ∧ raw.length ≤ nodeCap ∧
        tr'.changed[x.1]? = some (some raw) := by
  induction l generalizing tr with
  | nil =>
    cases h
    exact ⟨rfl, rfl, fun _ _ => rfl, fun x hx => absurd hx List.not_mem_nil⟩
  | cons x l ih =>
    simp only [List.foldlM_cons, Except.bind_eq_ok] at h
    obtain ⟨tr₁, hstep, hrest⟩ := h
    obtain ⟨n, s, raw, hd, hseal, hcap, rfl⟩ := Tree.sealChange_eq_ok hstep
    rw [List.map_cons, List.nodup_cons] at hnodup
    obtain ⟨htable, hcrypto, hother, hsealed⟩ := ih hnodup.2 hrest
    refine ⟨htable, hcrypto, fun a ha => ?_, fun y hy => ?_⟩
    · have hne : a ≠ x.1 := by
        rintro rfl
        exact ha x.2 (.head _ ..)
      rw [hother a fun scope hs => ha scope (.tail _ hs)]
      exact Maps.get_insert_of_ne _ _ hne
    · rcases mem_cons.mp hy with rfl | hy
      · refine ⟨n, s, raw, hd, hseal, hcap, ?_⟩
        rw [hother y.1 fun scope hs => hnodup.1 (mem_map.mpr ⟨(y.1, scope), hs, rfl⟩)]
        exact Std.TreeMap.getElem?_insert_self
      · exact hsealed y hy

/-- After sealing, a pending address holds the envelope of its node and the rest is unchanged. -/
theorem Tree.Sound.sealChanges (hs : Tree.Sound K tr) (h : tr.sealChanges nonces = .ok tr') (a : Id) :
    (tr.pendingScopes[a]? = none ∧ tr'.publish[a]? = match tr.changed[a]? with
      | some _ => none
      | none => tr.table[a]?) ∨
    ∃ scope n s raw, tr.pendingScopes[a]? = some scope ∧ tr.decoded[a]? = some (n, s) ∧ Tree.Proved K tr a scope n s ∧
      tr.crypto.sealNode (nonces a) scope a n.encode = .ok raw ∧ raw.length ≤ nodeCap ∧
      tr'.publish[a]? = some raw := by
  obtain ⟨htable, _, hother, hsealed⟩ := Tree.sealList (Maps.nodup_keys _) h
  have hmem : ∀ scope, (a, scope) ∈ tr.pendingScopes.toList ↔ tr.pendingScopes[a]? = some scope :=
    fun scope => Std.TreeMap.mem_toList_iff_getElem?_eq_some
  cases hp : tr.pendingScopes[a]? with
  | none =>
    refine .inl ⟨rfl, ?_⟩
    have hsame := hother a fun scope hs => by
      rw [hmem, hp] at hs
      simp at hs
    have hnot : ¬ ∃ raw, tr.changed[a]? = some (some raw) := by
      rw [← hs.pending a, Maps.mem_iff, hp]
      simp
    rw [Tree.publish, Maps.get_publish, hsame, htable]
    rcases hc : tr.changed[a]? with _ | _ | raw
    · rfl
    · rfl
    · exact absurd ⟨raw, hc⟩ hnot
  | some scope =>
    obtain ⟨n, s, raw, hd, hseal, hcap, hc⟩ := hsealed (a, scope) ((hmem scope).mpr hp)
    obtain ⟨n', s', hd', _, hproved⟩ := hs.placeholder a scope hp
    obtain ⟨rfl, rfl⟩ := Prod.mk.inj (Option.some.inj (hd.symm.trans hd'))
    refine .inr ⟨scope, n, s, raw, rfl, hd, hproved, hseal, hcap, ?_⟩
    rw [Tree.publish, Maps.get_publish, hc]

theorem Tree.rowNode_sealNode (hP : P.OpensWhatItSealed) {nonce : Option Nonce}
    {a : Id} (hn : n.Wf) (hseal : crypto.sealNode nonce scope a n.encode = .ok raw) :
    Tree.rowNode crypto scope a raw = some n := by
  have hopen : crypto.openNode scope a raw = .ok n.encode := by
    refine openEnvelope_of_sealEnvelope hP hseal ?_
    rw [length_of_sealEnvelope hP hseal]
    exact n.length_encode_le
  simp only [Tree.rowNode, hopen, Except.bind, Node.decode_encode hn]
  rfl

theorem Tree.head_of_rowNode {a : Id} (h : Tree.rowNode crypto scope a raw = some n) : raw.head? = some 5 := by
  unfold Tree.rowNode at h
  cases hopen : crypto.openNode scope a raw with
  | error e =>
    rw [hopen] at h
    exact absurd h (by simp [Except.bind, Except.toOption])
  | ok plain =>
    simp only [Crypto.openNode, openEnvelope, Except.ok_iff] at hopen
    obtain ⟨_, hok, _⟩ := hopen
    exact not_not.mp (not_or.mp (not_or.mp hok).2).2

/-- Publishing a sealed session writes a table that stores exactly the session's forest. -/
theorem Session.Represents.published {s : Session} (h : s.Represents K f)
    (hP : P.OpensWhatItSealed) (hseal : s.tree.sealChanges nonces = .ok tr) :
    Published K s.tree.crypto tr.publish f := by
  have hsealed := h.sound.sealChanges hseal
  refine ⟨h.valid, fun scope t row hf hr => ?_, fun a raw ha => ?_⟩
  · obtain ⟨hv, hkeys, _⟩ := h.valid scope t hf
    have hknown := hkeys.row hv hr
    have hlays := h.stored scope
    rw [hf] at hlays
    have hview := hlays.row hr
    rw [Tree.memory_known hknown] at hview
    rcases hsealed (nodeAddress s.tree.crypto scope row.1) with ⟨hp, hpub⟩ |
      ⟨scope', n, sum, raw, hp, hd, hproved, hraw, _, hpub⟩
    · rcases hc : s.tree.changed[nodeAddress s.tree.crypto scope row.1]? with _ | _ | old
      · rw [hc] at hpub
        simp only [Tree.view, hc] at hview
        obtain ⟨raw, hraw, hnode⟩ := Option.bind_eq_some_iff.mp hview
        exact ⟨raw, hpub.trans hraw, hnode⟩
      · rw [Tree.view, hc] at hview
        simp at hview
      · have hmem := (h.sound.pending _).mpr ⟨old, hc⟩
        rw [Maps.mem_iff, hp] at hmem
        simp at hmem
    · obtain rfl := hproved.scope_eq h.collisionFree hknown
      have hnode : n = row.2 := Option.some.inj (hproved.shown.symm.trans hview)
      subst hnode
      exact ⟨raw, hpub, Tree.rowNode_sealNode hP hproved.wf hraw⟩
  · have hlive : s.tree.Live a := by
      rcases hsealed a with ⟨_, hpub⟩ | ⟨_, _, _, _, hp, _⟩
      · rw [ha] at hpub
        rcases hc : s.tree.changed[a]? with _ | entry
        · rw [hc] at hpub
          simp only [Tree.Live, hc]
          exact fun hnone => Option.some_ne_none raw (hpub.trans hnone)
        · rw [hc] at hpub
          simp at hpub
      · obtain ⟨old, hc⟩ := (h.sound.pending a).mp ((Maps.mem_iff _ a).mpr ⟨_, hp⟩)
        simp [Tree.Live, hc]
    obtain ⟨scope, e, n, he, rfl, hview⟩ := h.sound.live a hlive
    have hmem : Tree.memory K s.tree scope e = some n := (Tree.memory_known he).trans hview
    have hlays := h.stored scope
    cases hf : f scope with
    | none =>
      rw [hf] at hlays
      rw [hlays e (Session.below_root e)] at hmem
      simp at hmem
    | some t =>
      rw [hf] at hlays
      have hin := (hlays.ne_none_iff (h.valid scope t hf).1 (Session.below_root e)).mp (by rw [hmem]; simp)
      rw [← Trie.rows_entrances (Shape.node s.tree.crypto scope)] at hin
      obtain ⟨row, hr, rfl⟩ := mem_map.mp hin
      exact ⟨scope, t, row, hf, hr, rfl⟩

def Shape.addresses (crypto : Crypto) (scope : UInt8) (t : Shape) : List Id :=
  (t.rows crypto scope).map fun row => nodeAddress crypto scope row.1

/-- A tree with `n` leaves has `2 n - 1` rows, at different addresses. -/
theorem Shape.addresses_spec (hK : CollisionFree crypto K) (scope : UInt8)
    (hv : t.Valid 0 0) (hkeys : t.KeysIn K) : (t.addresses crypto scope).Nodup ∧
      (t.addresses crypto scope).length = 2 * t.leaves.length - 1 := by
  have heq : t.addresses crypto scope = (((0, 0) :: t.inner).map (nodeAddress crypto scope)) := by
    rw [← Trie.rows_entrances (Shape.node crypto scope) 0 0 t, List.map_map]
    rfl
  rw [heq]
  constructor
  · refine List.Nodup.map_on (fun e he e' he' haddr => ?_) hv.entrances_nodup
    have hknown : ∀ e ∈ (0, 0) :: t.inner, Known K e := fun e he => by
      obtain ⟨x, hx, hcut⟩ := hv.entrance_of_leaf he
      exact ⟨(hv.entrance_below he).2.1, x.1, hkeys x hx, hcut⟩
    exact (hK (hknown e he) (hknown e' he') haddr).2
  · have hlen := Trie.inner_length t
    rw [List.length_map, List.length_cons]
    omega

/-- Publication is exact. Over a table that stores exactly what its roots reach, every session
leaves each pending address with its node and a reserved place of the sealed length. Once sealed
and published, the table stores exactly what the new roots reach, every row is an envelope, and a
tree with `n` leaves has `2 n - 1` rows. -/
theorem publication_stores_exactly (hP : P.OpensWhatItSealed) {roots : UInt8 → Summary}
    (hK : CollisionFree crypto K) (h : StoresExactly crypto table roots)
    (hkeys : ∀ scope row, Reach crypto table scope (0, 0) (roots scope) row → row.2.bits = 256 → row.2.pfx ∈ K)
    (layout : Layout) {ops : List Op} (hops : ∀ op ∈ ops, op.Uses K) {s : Session}
    (hrun : (Session.start table crypto layout roots).run ops = .ok s) :
    (∀ (a : Id) scope, s.tree.pendingScopes[a]? = some scope → ∃ n sum placeholder,
      s.tree.decoded[a]? = some (n, sum) ∧ s.tree.changed[a]? = some (some placeholder) ∧
      ∀ nonce raw, crypto.sealNode nonce scope a n.encode = .ok raw → placeholder.length = raw.length) ∧
    ∀ nonces tr, s.tree.sealChanges nonces = .ok tr → StoresExactly crypto tr.publish s.roots ∧
      (∀ (a : Id) raw, tr.publish[a]? = some raw → ∀ len, raw ≠ List.replicate len 0) ∧
      ∀ scope, (s.roots scope).count ≠ 0 → ∃ addresses : List Id, addresses.Nodup ∧
        addresses.length = 2 * (s.roots scope).count.toNat - 1 ∧
        ∀ a, a ∈ addresses ↔ ∃ row, Reach crypto tr.publish scope (0, 0) (s.roots scope) row ∧
          a = nodeAddress crypto scope row.1 := by
  obtain ⟨f, hpub, hroots⟩ := h.published hkeys
  obtain ⟨hrep, hkeeps⟩ := (hpub.start hK layout hroots).run hops hrun
  have hcrypto : s.tree.crypto = crypto := hkeeps.crypto
  generalize ops.foldl Op.effect f = f' at hrep
  refine ⟨fun a scope hp => ?_, fun nonces tr hseal => ?_⟩
  · obtain ⟨n, sum, hd, hc, _⟩ := hrep.sound.placeholder a scope hp
    refine ⟨n, sum, _, hd, hc, fun nonce raw hraw => ?_⟩
    rw [List.length_replicate, length_of_sealEnvelope hP hraw]
  have hpub' := hrep.published hP hseal
  rw [hcrypto] at hpub'
  have hroots' : s.roots = fun scope => Shape.summaryOption crypto scope (f' scope) := by
    funext scope
    rw [← hcrypto]
    exact hrep.roots scope
  refine ⟨hroots' ▸ hpub'.storesExactly, fun a raw ha len hzero => ?_, fun scope hcount => ?_⟩
  · obtain ⟨scope, t, row, hf, hr, rfl⟩ := hpub'.exact a raw ha
    obtain ⟨raw', hraw', hnode⟩ := hpub'.stored scope t row hf hr
    cases ha.symm.trans hraw'
    have hhead := Tree.head_of_rowNode hnode
    rw [hzero] at hhead
    cases len with
    | zero => simp at hhead
    | succ len => exact absurd (Option.some.inj hhead) (by decide)
  · have hroot := congrFun hroots' scope
    cases hf : f' scope with
    | none =>
      rw [hf] at hroot
      exact absurd (congrArg Summary.count hroot) hcount
    | some t =>
      obtain ⟨hv, hkeysIn, hfits⟩ := hpub'.valid scope t hf
      obtain ⟨hnodup, hlen⟩ := Shape.addresses_spec hK scope hv hkeysIn
      rw [hf] at hroot
      refine ⟨t.addresses crypto scope, hnodup, ?_, fun a => ?_⟩
      · have hcount' : (s.roots scope).count.toNat = t.leaves.length := by
          rw [hroot]
          exact UInt64.toNat_ofNat_of_lt' hfits.1
        rw [hlen, hcount']
      · have hreach := hpub'.reach_iff scope
        rw [hroot]
        simp only [hf] at hreach
        simp only [Shape.addresses, mem_map]
        constructor
        · rintro ⟨row, hr, rfl⟩
          exact ⟨row, (hreach row).mpr ⟨t, rfl, hr⟩, rfl⟩
        · rintro ⟨row, hr, rfl⟩
          obtain ⟨t', ht', hrow⟩ := (hreach row).mp hr
          exact ⟨row, Option.some.inj ht' ▸ hrow, rfl⟩

end

def sampleFirst : Payload := ⟨7, 10, 5, 0, by decide, by decide⟩
def sampleSecond : Payload := ⟨8, 20, 0, 1, by decide, by decide⟩

/-- A short session over two scopes, with a split, a promotion and a cleared cache. -/
def sampleOps : List Op := [.put 0 0 sampleFirst, .put 0 (BitVec.ofNat 256 (2 ^ 255)) sampleSecond, .clearReadProofs,
    .remove 0 0, .put 3 0 sampleSecond]

def sampleLayout : Layout := ⟨400, 1000, id⟩
def sampleNonce : Nonce := ⟨List.replicate 24 0, rfl⟩

theorem sampleOps_uses : ∀ op ∈ sampleOps, op.Uses {0, BitVec.ofNat 256 (2 ^ 255)} := by
  simp [sampleOps, Op.Uses]

/-- The sample session runs, seals and publishes exactly. -/
theorem publication_stores_exactly_sample : ∃ s tr,
    @Session.run Primitives.plain (Session.start ∅ Crypto.blank sampleLayout
      fun _ => Summary.default) sampleOps = .ok s ∧
    @Tree.sealChanges Primitives.plain s.tree (fun _ => some sampleNonce) = .ok tr ∧
    @StoresExactly Primitives.plain Crypto.blank tr.publish s.roots := by
  obtain ⟨tr, htr⟩ := Except.exists_of_isOk (x := do
    let s ← @Session.run Primitives.plain (Session.start ∅ Crypto.blank sampleLayout
      fun _ => Summary.default) sampleOps
    @Tree.sealChanges Primitives.plain s.tree (fun _ => some sampleNonce)) (by decide +kernel)
  obtain ⟨s, hrun, hseal⟩ := Except.bind_eq_ok.mp htr
  have h := publication_stores_exactly (P := Primitives.plain) Primitives.plain_opensWhatItSealed
    collisionFree_plain (@storesExactly_empty Primitives.plain Crypto.blank)
    (fun _ _ hr _ => absurd hr (@not_reach_default Primitives.plain _ _ _ _ _)) sampleLayout
    sampleOps_uses hrun
  exact ⟨s, tr, hrun, hseal, (h.2 _ tr hseal).1⟩

end Kilogram.Index
