import Kilogram.Index.Planned

/-!
# Sessions

A session runs operations on one overlay over a table, keeping the root summary of every scope.
-/

namespace Kilogram.Index
open Radix
open Function (update update_self update_of_ne)

structure Session where
  tree : Tree
  roots : UInt8 → Summary

inductive Op where
  | put (scope : UInt8) (key : Id) (value : Payload)
  | remove (scope : UInt8) (key : Id)
  | load (scope : UInt8) (entrance : Id × Nat) (expected : Summary)
  | clearReadProofs
  | enableReadReuse

abbrev Forest := UInt8 → Option Shape

/-- The tree of a scope with one leaf set; the first leaf is the whole tree. -/
def Shape.setOption (key : Id) (value : Payload) : Option Shape → Shape
  | none => .leaf key value
  | some t => t.set key value

def Op.effect (f : Forest) : Op → Forest
  | .put scope key value => update f scope (some (Shape.setOption key value (f scope)))
  | .remove scope key => update f scope ((f scope).bind (·.erase key))
  | _ => f

/-- The keys and entrances an operation brings in are known. -/
def Op.Uses (K : Set Id) : Op → Prop
  | .put _ key _ => key ∈ K
  | .load _ entrance _ => Known K entrance
  | _ => True

namespace Session

theorem below_root (e : Id × Nat) : Below (0 : Id) 0 e := ⟨Nat.zero_le _, cut_zero e.1⟩

variable [P : Primitives]

def start (table : Std.TreeMap Id Bytes) (crypto : Crypto) (layout : Layout)
    (roots : UInt8 → Summary) : Session := ⟨Tree.new table crypto layout, roots⟩

/-- Run one operation. A write that fails ends the session; a load that fails has read nothing. -/
def step (s : Session) : Op → Result Session
  | .put scope key value => do
    let (root, tree) ← s.tree.put scope (s.roots scope) (value.node key)
    return ⟨tree, update s.roots scope root⟩
  | .remove scope key => do
    let (root, tree) ← s.tree.remove scope (s.roots scope) key
    return ⟨tree, update s.roots scope root⟩
  | .load scope entrance expected =>
    match s.tree.load scope entrance expected with
    | .ok (_, tree) => .ok { s with tree }
    | .error _ => .ok s
  | .clearReadProofs => .ok { s with tree := s.tree.clearReadProofs }
  | .enableReadReuse => .ok { s with tree := s.tree.enableReadReuse }

def run (s : Session) (ops : List Op) : Result Session := ops.foldlM step s

/-- The overlay holds exactly the trees of the forest, and the roots are their summaries. -/
structure Represents (K : Set Id) (s : Session) (f : Forest) : Prop where
  sound : Tree.Sound K s.tree
  collisionFree : CollisionFree s.tree.crypto K
  stored : ∀ scope, Trie.LaysOption (Shape.node s.tree.crypto scope)
    (Tree.memory K s.tree scope) 0 0 (f scope)
  valid : ∀ scope t, f scope = some t → t.Valid 0 0 ∧ t.KeysIn K ∧ t.Fits
  roots : ∀ scope, s.roots scope = Shape.summaryOption s.tree.crypto scope (f scope)

variable {K : Set Id} {s s' : Session} {f : Forest} {scope : UInt8}

/-- What every operation keeps: the table and keys of the overlay, and planned trees. -/
structure Keeps (K : Set Id) (tr tr' : Tree) : Prop where
  table : tr'.table = tr.table
  crypto : tr'.crypto = tr.crypto
  planned : ∀ scope, Tree.AllPlanned K tr scope → Tree.AllPlanned K tr' scope

theorem Keeps.trans {tr tr' tr'' : Tree} (h : Keeps K tr tr') (h' : Keeps K tr' tr'') : Keeps K tr tr'' :=
  ⟨h'.table.trans h.table, h'.crypto.trans h.crypto, fun scope hp => h'.planned scope (h.planned scope hp)⟩

theorem Keeps.of_within {tr tr' : Tree} {R : Id × Nat → Prop} (h : Tree.Within K scope R tr tr') :
    Keeps K tr tr' := ⟨h.table, h.crypto, fun _ hp => h.allPlanned hp⟩

theorem Represents.became (h : Represents K s f) {tree : Tree} {root : Summary} {t : Option Shape}
    (hb : Tree.Became K scope 0 0 s.tree tree root t)
    (hv : ∀ x, t = some x → x.Valid 0 0 ∧ x.KeysIn K) :
    Represents K ⟨tree, update s.roots scope root⟩ (update f scope t) ∧ Keeps K s.tree tree := by
  have hw : Tree.Within K scope (Below 0 0) s.tree tree := by
    cases t with
    | none | some x => exact hb.within
  refine ⟨⟨?_, ?_, fun scope' => ?_, fun scope' x hx => ?_, fun scope' => ?_⟩, Keeps.of_within hw⟩
  · cases t with
    | none | some x => exact hb.sound
  · exact hw.crypto ▸ h.collisionFree
  · by_cases hs : scope' = scope
    · subst hs
      rw [update_self]
      cases t with
      | none => exact hb.empty
      | some x => exact hb.holds
    · rw [update_of_ne hs]
      have hmem : Tree.memory K tree scope' = Tree.memory K s.tree scope' := by
        funext e
        exact hw.frame scope' e fun hr => hs hr.1
      rw [hmem, hw.crypto]
      exact h.stored scope'
  · by_cases hs : scope' = scope
    · subst hs
      rw [update_self] at hx
      subst hx
      exact ⟨(hv x rfl).1, (hv x rfl).2, hb.fits⟩
    · rw [update_of_ne hs] at hx
      exact h.valid scope' x hx
  · change update s.roots scope root scope' = Shape.summaryOption tree.crypto scope' _
    by_cases hs : scope' = scope
    · subst hs
      rw [update_self, update_self, hw.crypto]
      cases t with
      | none | some x => exact hb.summary
    · rw [update_of_ne hs, update_of_ne hs, hw.crypto]
      exact h.roots scope'

theorem Represents.of_reads (h : Represents K s f) {tree : Tree} (hs : Tree.Sound K tree)
    (hr : Tree.Reads s.tree tree) : Represents K { s with tree } f ∧ Keeps K s.tree tree := by
  refine ⟨⟨hs, hr.crypto ▸ h.collisionFree, fun scope => ?_, h.valid, fun scope => ?_⟩,
    Keeps.of_within (hr.within 0 fun _ => False)⟩
  · rw [hr.memory, hr.crypto]
    exact h.stored scope
  · rw [hr.crypto]
    exact h.roots scope

theorem became_leaf (h : Represents K s f) {key : Id} {value : Payload} {root : Summary}
    {tree : Tree} (hk : key ∈ K) (hf : f scope = none)
    (hput : s.tree.put scope (s.roots scope) (value.node key) = .ok (root, tree)) :
    Tree.Became K scope 0 0 s.tree tree root (some (.leaf key value)) := by
  have hroot := h.roots scope
  have hempty := h.stored scope
  rw [hf] at hroot hempty
  have hcount : (s.roots scope).count = 0 := by
    rw [hroot]
    rfl
  rw [Tree.put, Tree.insert, if_pos hcount] at hput
  have hv : (Trie.leaf key value).Valid 0 0 := ⟨Nat.zero_le _, cut_zero key⟩
  obtain ⟨hs, hw, hm, rfl⟩ := h.sound.store_node (t := .leaf key value) h.collisionFree
    (known_root hk) hv (Shape.fits_leaf key value) hput
  refine ⟨hs, hw.mono fun _ he => he ▸ below_root _, ?_, Shape.fits_leaf key value, rfl⟩
  refine ⟨by rw [hm, hw.crypto], fun e _ hne => ?_⟩
  rw [hw.frame scope e fun h => hne h.2]
  exact hempty e (below_root e)

theorem Represents.put (h : Represents K s f) {key : Id} {value : Payload} (hk : key ∈ K)
    (hstep : s.step (.put scope key value) = .ok s') :
    Represents K s' (Op.effect f (.put scope key value)) ∧ Keeps K s.tree s'.tree := by
  simp only [step, Except.ok_iff, Prod.exists] at hstep
  obtain ⟨root, tree, hput, rfl⟩ := hstep
  cases hf : f scope with
  | none =>
    simp only [Op.effect, hf, Shape.setOption]
    refine h.became (became_leaf h hk hf hput) fun x hx => ?_
    cases hx
    refine ⟨⟨Nat.zero_le _, cut_zero key⟩, fun y hy => ?_⟩
    rw [List.mem_singleton.mp hy]
    exact hk
  | some t =>
    simp only [Op.effect, hf, Shape.setOption]
    obtain ⟨hv, hkeys, hfits⟩ := h.valid scope t hf
    have hstored := h.stored scope
    have hroot := h.roots scope
    rw [hf] at hstored hroot
    rw [Tree.put, hroot] at hput
    refine h.became (t := some (t.set key value)) (h.sound.insert hk 257 h.collisionFree hkeys hv
      hfits hstored (cut_zero key) hput) fun x hx => ?_
    cases hx
    refine ⟨hv.set value (cut_zero key), fun y hy => ?_⟩
    rcases (hv.mem_leaves_set value (cut_zero key) y).mp hy with rfl | hy
    · exact hk
    · exact hkeys y hy.2

theorem Represents.remove (h : Represents K s f) {key : Id} (hstep : s.step (.remove scope key) = .ok s') :
    (∃ t u, f scope = some t ∧ (key, u) ∈ t.leaves) ∧
      Represents K s' (Op.effect f (.remove scope key)) ∧ Keeps K s.tree s'.tree := by
  simp only [step, Except.ok_iff, Prod.exists] at hstep
  obtain ⟨root, tree, hremove, rfl⟩ := hstep
  have hroot := h.roots scope
  cases hf : f scope with
  | none =>
    rw [hf] at hroot
    rw [Tree.remove, Tree.delete, hroot] at hremove
    simp [Tree.load, Shape.summaryOption, Summary.default] at hremove
  | some t =>
    simp only [Op.effect, hf, Option.bind_some]
    obtain ⟨hv, hkeys, hfits⟩ := h.valid scope t hf
    have hstored := h.stored scope
    rw [hf] at hstored hroot
    rw [Tree.remove, hroot] at hremove
    obtain ⟨⟨u, hu⟩, hb⟩ := h.sound.delete 257 h.collisionFree hkeys hv hfits hstored hremove
    refine ⟨⟨t, u, rfl, hu⟩, h.became hb fun x hx => ⟨hv.erase hx, fun y hy => ?_⟩⟩
    exact hkeys y ((hv.mem_leaves_erase hu y).mp ⟨x, hx, hy⟩).2


theorem Represents.step (h : Represents K s f) {op : Op} (hu : op.Uses K)
    (hstep : s.step op = .ok s') : Represents K s' (op.effect f) ∧ Keeps K s.tree s'.tree := by
  cases op with
  | put scope key value => exact h.put hu hstep
  | remove scope key => exact (h.remove hstep).2
  | load scope entrance expected =>
    rw [Session.step] at hstep
    split at hstep
    · next n tree hload =>
      cases hstep
      obtain ⟨hs, hr, _⟩ := h.sound.load h.collisionFree hu hload
      exact h.of_reads hs hr
    · cases hstep
      exact h.of_reads h.sound (Tree.Reads.refl _)
  | clearReadProofs =>
    cases hstep
    exact h.of_reads h.sound.clearReadProofs.1 h.sound.clearReadProofs.2
  | enableReadReuse =>
    cases hstep
    exact h.of_reads h.sound.enableReadReuse.1 h.sound.enableReadReuse.2

/-- Every run keeps the session in step with its forest. -/
theorem Represents.run (h : Represents K s f) {ops : List Op} (hu : ∀ op ∈ ops, op.Uses K)
    (hrun : s.run ops = .ok s') :
    Represents K s' (ops.foldl Op.effect f) ∧ Keeps K s.tree s'.tree := by
  induction ops generalizing s f with
  | nil =>
    cases hrun
    exact ⟨h, ⟨rfl, rfl, fun _ hp => hp⟩⟩
  | cons op ops ih =>
    simp only [Session.run, List.foldlM_cons, Except.bind_eq_ok] at hrun
    obtain ⟨s₁, hstep, hrun⟩ := hrun
    obtain ⟨h₁, hk₁⟩ := h.step (hu op (.head _ ..)) hstep
    obtain ⟨h₂, hk₂⟩ := ih h₁ (fun o ho => hu o (.tail _ ho)) hrun
    exact ⟨h₂, hk₁.trans hk₂⟩

end Session
end Kilogram.Index
