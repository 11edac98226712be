import Kilogram.Index.Publication

/-!
# Reads of a table that is not trusted

A lookup under the root summary of a tree answers as the tree does or fails, whatever the table holds
and whatever was read before.
-/

namespace Kilogram.Index
open Radix
open Except (ok_iff)
section
variable [P : Primitives] {table : Std.TreeMap Id Bytes} {crypto : Crypto} {scope : UInt8} {tr tr' : Tree}
  {t : Shape} {e : Id × Nat} {n : Node} {s : Summary} {key : Id}

/-- A row of the table opens, in some scope, to this node, and the node has this summary. -/
def FromRow (table : Std.TreeMap Id Bytes) (crypto : Crypto) (n : Node) (s : Summary) : Prop :=
  ∃ σ a raw, table[a]? = some raw ∧ Tree.rowNode crypto σ a raw = some n ∧ n.summary crypto σ = .ok s

/-- No row opens to another node with the summary of a node of the tree. -/
def Unforged (table : Std.TreeMap Id Bytes) (crypto : Crypto) (scope : UInt8) (t : Shape) : Prop :=
  (∀ n, FromRow table crypto n (t.summary crypto scope) → n = t.node crypto scope) ∧
  match t with
  | .leaf .. => True
  | .branch _ _ l r => Unforged table crypto scope l ∧ Unforged table crypto scope r

def Op.Reads : Op → Prop
  | .put .. | .remove .. => False
  | _ => True

/-- An overlay of the table without changes, all of whose nodes are verified. -/
structure Checked (table : Std.TreeMap Id Bytes) (crypto : Crypto) (tr : Tree) : Prop where
  rows : tr.table = table
  keys : tr.crypto = crypto
  changed : tr.changed = ∅
  decoded : ∀ (a : Id) n s, tr.decoded[a]? = some (n, s) → FromRow table crypto n s
  reused : ∀ (a : Id) σ n s, tr.reused[a]? = some (σ, n, s) → FromRow table crypto n s

namespace Checked

theorem remember (h : Checked table crypto tr) {a : Id} (hv : FromRow table crypto n s)
    (hok : tr.remember a n s = .ok tr') : Checked table crypto tr' := by
  obtain ⟨rfl, -⟩ := Tree.remember_eq_ok hok
  refine { h with decoded := fun a' n' s' hd => ?_ }
  rw [Maps.get_insert] at hd
  split at hd
  · cases hd
    exact hv
  · exact h.decoded a' n' s' hd

theorem load (h : Checked table crypto tr) (hload : tr.load scope e s = .ok (n, tr')) :
    Checked table crypto tr' ∧ FromRow table crypto n s := by
  simp only [Tree.load, ok_iff] at hload
  obtain ⟨_, _, hload⟩ := hload
  split at hload
  · next node summary hd =>
    simp only [ok_iff, Prod.mk.injEq, not_not] at hload
    obtain ⟨_, rfl, rfl, rfl⟩ := hload
    exact ⟨h, h.decoded _ _ _ hd⟩
  · split at hload
    · next provedScope node summary hr =>
      simp only [ok_iff, Prod.mk.injEq, not_or, not_not] at hload
      obtain ⟨_, ⟨_, rfl⟩, u, hu, rfl, rfl⟩ := hload
      have hv := h.reused _ _ _ _ hr
      exact ⟨h.remember hv hu, hv⟩
    · simp only [Tree.rawAt, h.changed, h.rows, h.keys, Std.TreeMap.getElem?_emptyc, ok_iff,
        Prod.mk.injEq, not_not] at hload
      obtain ⟨_, ⟨raw, hrow, _, _, rfl⟩, _, hopen, m, hdec, _, _, s, hsum, _, rfl, u, hu, rfl, rfl⟩ := hload
      have hnode : Tree.rowNode crypto scope (tr.address scope e.1 e.2) raw = some m := by
        rw [Tree.rowNode, hopen]
        exact congrArg Except.toOption hdec
      have hv : FromRow table crypto m s := ⟨scope, _, _, hrow, hnode, hsum⟩
      have hc := h.remember hv hu
      obtain ⟨reused, fifo, heq, hsub⟩ := Tree.reuse_spec u (tr.address scope e.1 e.2) scope m s
      rw [heq]
      refine ⟨{ hc with reused := fun a' σ n' s' hx => ?_ }, hv⟩
      rcases hsub a' _ hx with hold | ⟨-, hnew⟩
      · exact hc.reused a' σ n' s' hold
      · cases hnew
        exact hv

theorem findInner {fuel : Nat} {x : Option Node} (h : Checked table crypto tr) (hf : t.Fits)
    (hu : Unforged table crypto scope t)
    (hfind : tr.findInner scope key fuel e (t.summary crypto scope) = .ok (x, tr')) :
    x = (t.get? key).map fun v => v.node key := by
  induction fuel generalizing tr e t with
  | zero => cases hfind
  | succ fuel ih =>
    rw [Tree.findInner, if_neg (Shape.summary_count_ne_zero hf)] at hfind
    simp only [ok_iff, Prod.exists] at hfind
    obtain ⟨n, u, hload, hfind⟩ := hfind
    obtain ⟨hc, hv⟩ := h.load hload
    unfold Unforged at hu
    obtain rfl := hu.1 n hv
    rw [Shape.node_pfx, Shape.node_bits] at hfind
    cases t with
    | leaf k v =>
      rw [show prefixOf key (Trie.leaf k v).bits = key from cut_full key 256 (le_refl _)] at hfind
      rw [Trie.get?]
      split at hfind
      · next hkey =>
        cases hfind
        rw [if_neg (show ¬ k = key from Ne.symm hkey), Option.map_none]
      · next hkey =>
        obtain rfl : key = k := not_not.mp hkey
        cases hfind
        rw [if_pos rfl]
        rfl
    | branch q b l r =>
      rw [Trie.get?]
      split at hfind
      · next hq =>
        cases hfind
        rw [if_neg (show ¬ cut key b = q from hq), Option.map_none]
      · next hq =>
        rw [if_pos (show cut key b = q from not_not.mp hq)]
        change u.findInner scope key fuel _ (if key.getMsbD b then Shape.summary crypto scope r
          else Shape.summary crypto scope l) = .ok (x, tr') at hfind
        split_ifs at hfind ⊢
        · exact ih hc hf.sides.2 hu.2.2 hfind
        · exact ih hc hf.sides.1 hu.2.1 hfind

theorem step {u u' : Session} {op : Op} (h : Checked table crypto u.tree) (hop : op.Reads)
    (hstep : u.step op = .ok u') : Checked table crypto u'.tree := by
  cases op with
  | put | remove => cases hop
  | load σ entrance expected =>
    rw [Session.step] at hstep
    split at hstep <;> cases hstep
    · next hload => exact (h.load hload).1
    · exact h
  | clearReadProofs =>
    cases hstep
    refine { h with decoded := fun a n s hd => h.decoded a n s ?_ }
    rw [Tree.clearReadProofs, Std.TreeMap.getElem?_filter'] at hd
    exact (Option.filter_eq_some_iff.mp hd).1
  | enableReadReuse =>
    cases hstep
    exact { h with }

end Checked

/-- Reads are authentic: after any reads of any table, a lookup under the root summary of a tree that
comes to an end finds the leaf that the tree has, or that it has none. -/
theorem reads_authentic {layout : Layout} {roots : UInt8 → Summary} {ops : List Op} {u : Session}
    (hops : ∀ op ∈ ops, op.Reads) (hrun : (Session.start table crypto layout roots).run ops = .ok u)
    {t : Option Shape} (ht : ∀ x, t = some x → x.Fits ∧ Unforged table crypto scope x) {x : Option Node}
    (hfind : u.tree.find scope (Shape.summaryOption crypto scope t) key = .ok (x, tr')) :
    x = (t.bind (·.get? key)).map fun v => v.node key := by
  have hc : Checked table crypto u.tree := by
    refine Except.foldlM_invariant (fun u : Session => Checked table crypto u.tree)
      (fun u op u' hop hstep hc => hc.step (hops op hop) hstep) hrun ⟨rfl, rfl, rfl, ?_, ?_⟩
    · simp [Session.start, Tree.new]
    · simp [Session.start, Tree.new]
  cases t with
  | none => cases hfind; rfl
  | some t => exact hc.findInner (ht t rfl).1 (ht t rfl).2 hfind

end

section
variable [Primitives] {crypto : Crypto} {scope : UInt8} {n : Node} {s : Summary}

/-- What a node counts and charges, in every scope. -/
def Node.weights (n : Node) : Nat × Nat × Nat :=
  match n.body with
  | .leaf _ _ charge _ owner =>
    let used := Summary.default.used.set owner charge
    (1, used.zero.toNat, used.one.toNat)
  | .branch left right => (left.count.toNat + right.count.toNat, left.used.zero.toNat + right.used.zero.toNat,
      left.used.one.toNat + right.used.one.toNat)

theorem Node.weights_of_summary (h : n.summary crypto scope = .ok s) :
    n.weights = (s.count.toNat, s.used.zero.toNat, s.used.one.toNat) := by
  obtain ⟨pfx, bits, body⟩ := n
  cases body with
  | leaf =>
    cases h
    rfl
  | branch left right =>
    simp only [Node.summary, ok_iff, checkedAdd_eq_some] at h
    obtain ⟨_, hcount, _, hzero, _, -, _, hone, _, -, rfl⟩ := h
    simp only [Node.weights, hcount, hzero, hone]

end

local instance plainPrimitives : Primitives := .plain

def sampleRow (n : Node) : Bytes := 5 :: (sampleNonce.bytes ++ (n.encode ++ List.replicate 16 0))

def sampleShape : Shape := .branch 0 0 (.leaf 0 sampleFirst) (.leaf (BitVec.ofNat 256 (2 ^ 255)) sampleSecond)

def sampleForeign : Payload := ⟨9, 30, 0, 0, by decide, sampleFirst.owner_le⟩

/-- The nodes of the tree, and a leaf that is not of it. -/
def sampleNodes : List Node := [sampleShape.node Crypto.blank 0, sampleFirst.node 0,
    sampleSecond.node (BitVec.ofNat 256 (2 ^ 255)), sampleForeign.node 3]

def sampleTable : Std.TreeMap Id Bytes :=
  ([(0, 0), (0, 1), (BitVec.ofNat 256 (2 ^ 255), 1), (1, 256)].zip sampleNodes).foldl
    (fun table x => table.insert (nodeAddress Crypto.blank 0 x.1) (sampleRow x.2)) ∅

theorem rowNode_sampleTable {σ : UInt8} {a : Id} {raw : Bytes} {n : Node} (hrow : sampleTable[a]? = some raw)
    (hnode : Tree.rowNode Crypto.blank σ a raw = some n) : n ∈ sampleNodes := by
  have hraw : ∃ m ∈ sampleNodes, raw = sampleRow m := by
    simp only [sampleTable, sampleNodes, List.zip_cons_cons, List.zip_nil_left, List.foldl_cons, List.foldl_nil,
      Maps.get_insert] at hrow
    simp only [sampleNodes, List.mem_cons, List.not_mem_nil, or_false, exists_eq_or_imp, exists_eq_left]
    split_ifs at hrow <;> simp_all
  obtain ⟨m, hm, rfl⟩ := hraw
  have hdecode : ∀ m ∈ sampleNodes, Node.decode m.encode = .ok m := by decide +kernel
  have hwf := Node.wf_of_decode (hdecode m hm)
  have hseal : Crypto.blank.sealNode (some sampleNonce) σ a m.encode = .ok (sampleRow m) := rfl
  cases hnode.symm.trans (Tree.rowNode_sealNode Primitives.plain_opensWhatItSealed hwf hseal)
  exact hm

theorem unforged_sampleShape : Unforged sampleTable Crypto.blank 0 sampleShape := by
  have hone (t : Shape) (ht : ∀ n ∈ sampleNodes, n.weights = ((t.summary Crypto.blank 0).count.toNat,
      (t.summary Crypto.blank 0).used.zero.toNat, (t.summary Crypto.blank 0).used.one.toNat) →
        n = t.node Crypto.blank 0) (n : Node) (h : FromRow sampleTable Crypto.blank n (t.summary Crypto.blank 0)) :
      n = t.node Crypto.blank 0 := by
    obtain ⟨σ, a, raw, hrow, hnode, hsum⟩ := h
    exact ht n (rowNode_sampleTable hrow hnode) (Node.weights_of_summary hsum)
  refine ⟨hone _ ?_, ⟨hone _ ?_, trivial⟩, hone _ ?_, trivial⟩ <;> decide +kernel

/-- The two leaves are far from the limits. -/
theorem fits_sampleShape : sampleShape.Fits := by
  refine Shape.fits_branch_iff.mpr ⟨by decide, fun c => ?_, fun c => ?_⟩
  · simp only [Shape.used, Shape.weigh_leaf, Shape.usedBy]
    split_ifs <;> decide
  · simp only [Shape.reserved, Shape.weigh_leaf, Shape.reservedBy]
    split_ifs <;> decide

/-- Reads with reuse: the root, the root under another summary, which fails, and a leaf. -/
def sampleReads : List Op := [.enableReadReuse, .load 0 (0, 0) (sampleShape.summary Crypto.blank 0),
    .load 0 (0, 0) Summary.default, .clearReadProofs, .load 0 (0, 1) (Shape.summary Crypto.blank 0 (.leaf 0 sampleFirst))]

theorem reads_authentic_sample : ∃ u x tr, (Session.start sampleTable Crypto.blank sampleLayout fun σ =>
      sampleShape.summary Crypto.blank σ).run sampleReads = .ok u ∧
    u.tree.find 0 (sampleShape.summary Crypto.blank 0) (BitVec.ofNat 256 (2 ^ 255)) = .ok (x, tr) ∧
      x = some (sampleSecond.node (BitVec.ofNat 256 (2 ^ 255))) := by
  obtain ⟨⟨x, tr⟩, h⟩ := Except.exists_of_isOk (x := do
    let u ← (Session.start sampleTable Crypto.blank sampleLayout fun σ => sampleShape.summary Crypto.blank σ).run
      sampleReads
    u.tree.find 0 (sampleShape.summary Crypto.blank 0) (BitVec.ofNat 256 (2 ^ 255))) (by decide +kernel)
  simp only [ok_iff] at h
  obtain ⟨u, hrun, hfind⟩ := h
  have hreads : ∀ op ∈ sampleReads, op.Reads := by simp [sampleReads, Op.Reads]
  refine ⟨u, x, tr, hrun, hfind, reads_authentic hreads hrun (t := some sampleShape) ?_ hfind⟩
  rintro _ ⟨⟩
  exact ⟨fits_sampleShape, unforged_sampleShape⟩

end Kilogram.Index
