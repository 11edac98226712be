import Kilogram.Index.Publication

/-!
# The index as a finite map

Seen through its roots, a scope is a finite map from keys to leaves.
-/

namespace Kilogram.Index
open Radix

def Op.record (scope : UInt8) (m : Std.TreeMap Id Payload) : Op → Std.TreeMap Id Payload
  | .put scope' key value => if scope' = scope then m.insert key value else m
  | .remove scope' key => if scope' = scope then m.erase key else m
  | _ => m

def liveLeaves (scope : UInt8) (ops : List Op) : Std.TreeMap Id Payload := ops.foldl (Op.record scope) ∅

/-- The tree has the leaves of the map. -/
def Tracks (t : Option Shape) (m : Std.TreeMap Id Payload) : Prop :=
  ∀ k v, (∃ s, t = some s ∧ (k, v) ∈ s.leaves) ↔ m[k]? = some v

theorem tracks_none : Tracks none ∅ := by
  intro k v
  simp

variable {m : Std.TreeMap Id Payload}

theorem Tracks.perm {t : Shape} (h : Tracks (some t) m) (hv : t.Valid 0 0) : t.leaves.Perm m.toList := by
  refine (List.perm_ext_iff_of_nodup hv.keys_nodup.of_map (Maps.nodup_keys m).of_map).mpr ?_
  rintro ⟨k, v⟩
  rw [Std.TreeMap.mem_toList_iff_getElem?_eq_some, ← h k v]
  simp

theorem Tracks.get? {t : Shape} (h : Tracks (some t) m) (hv : t.Valid 0 0) (k : Id) : t.get? k = m[k]? := by
  apply Option.ext
  intro v
  rw [hv.get?_eq_some_iff, ← h k v]
  simp

theorem Tracks.unique {t t' : Option Shape} {m' : Std.TreeMap Id Payload} (h : Tracks t m)
    (h' : Tracks t' m') (hv : ∀ s, t = some s → s.Valid 0 0) (hv' : ∀ s, t' = some s → s.Valid 0 0)
    (heq : ∀ k : Id, m[k]? = m'[k]?) : t = t' := by
  have hsame : ∀ k v, (∃ s, t = some s ∧ (k, v) ∈ s.leaves) ↔ ∃ s, t' = some s ∧ (k, v) ∈ s.leaves :=
    fun k v => by rw [h k v, h' k v, heq k]
  cases t with
  | none =>
    cases t' with
    | none => rfl
    | some s' =>
      obtain ⟨x, hx⟩ := List.exists_mem_of_ne_nil _ (Trie.leaves_ne_nil s')
      obtain ⟨s, hs, _⟩ := (hsame x.1 x.2).mpr ⟨s', rfl, hx⟩
      simp at hs
  | some s =>
    cases t' with
    | none =>
      obtain ⟨x, hx⟩ := List.exists_mem_of_ne_nil _ (Trie.leaves_ne_nil s)
      obtain ⟨s', hs', _⟩ := (hsame x.1 x.2).mp ⟨s, rfl, hx⟩
      simp at hs'
    | some s' =>
      have hleaves : ∀ x, x ∈ s.leaves ↔ x ∈ s'.leaves := by
        rintro ⟨k, v⟩
        simpa using hsame k v
      rw [(hv s rfl).unique (hv' s' rfl) hleaves]

theorem Tracks.put {t : Option Shape} (h : Tracks t m)
    (hv : ∀ s, t = some s → s.Valid 0 0) (key : Id) (value : Payload) :
    Tracks (some (Shape.setOption key value t)) (m.insert key value) := by
  intro k v
  rw [Maps.get_insert]
  cases t with
  | none =>
    have hnone : m[k]? ≠ some v := fun hm => by
      obtain ⟨s, hs, _⟩ := (h k v).mpr hm
      simp at hs
    by_cases hk : key = k
    · subst hk
      simp [Shape.setOption, Trie.leaves, eq_comm]
    · simp [Shape.setOption, Trie.leaves, hk, Ne.symm hk, hnone]
  | some s =>
    have hm := h k v
    simp only [Option.some.injEq, exists_eq_left', Shape.setOption] at hm ⊢
    rw [(hv s rfl).mem_leaves_set value (cut_zero key)]
    by_cases hk : key = k
    · subst hk
      simp [eq_comm]
    · simp [hk, Ne.symm hk, hm]

theorem Tracks.remove {s : Shape} (h : Tracks (some s) m)
    (hv : s.Valid 0 0) {key : Id} {u : Payload} (hu : (key, u) ∈ s.leaves) :
    Tracks (s.erase key) (m.erase key) := by
  intro k v
  have hm := h k v
  simp only [Option.some.injEq, exists_eq_left'] at hm
  rw [hv.mem_leaves_erase hu (k, v), Maps.get_erase, hm]
  by_cases hk : key = k
  · subst hk
    simp
  · simp [hk, Ne.symm hk]

section
variable [P : Primitives] {K : Set Id} {s s' : Session} {f : Forest} {scope : UInt8}
variable {m : Std.TreeMap Id Payload} {crypto : Crypto} {live : UInt8 → Std.TreeMap Id Payload}

theorem Session.Represents.step_tracks (h : s.Represents K f) {op : Op}
    (hstep : s.step op = .ok s') (hm : Tracks (f scope) m) :
    Tracks (op.effect f scope) (op.record scope m) := by
  have hv : ∀ t, f scope = some t → t.Valid 0 0 := fun t ht => (h.valid scope t ht).1
  cases op with
  | put scope' key value =>
    by_cases hs : scope' = scope
    · subst hs
      simp only [Op.effect, Function.update_self, Op.record, if_true]
      exact hm.put hv key value
    · simp only [Op.effect, Function.update_of_ne (Ne.symm hs), Op.record, if_neg hs]
      exact hm
  | remove scope' key =>
    by_cases hs : scope' = scope
    · subst hs
      obtain ⟨⟨t, u, hf, hu⟩, _⟩ := h.remove hstep
      simp only [Op.effect, Function.update_self, Op.record, if_true, hf, Option.bind_some]
      exact (hf ▸ hm).remove (hv t hf) hu
    · simp only [Op.effect, Function.update_of_ne (Ne.symm hs), Op.record, if_neg hs]
      exact hm
  | load scope' entrance expected => exact hm
  | clearReadProofs => exact hm
  | enableReadReuse => exact hm

theorem Session.Represents.run_tracks (h : s.Represents K f) {ops : List Op}
    (hu : ∀ op ∈ ops, op.Uses K) (hrun : s.run ops = .ok s') (hm : Tracks (f scope) m) :
    Tracks (ops.foldl Op.effect f scope) (ops.foldl (Op.record scope) m) := by
  induction ops generalizing s f m with
  | nil => exact hm
  | cons op ops ih =>
    simp only [Session.run, List.foldlM_cons, Except.ok_iff] at hrun
    obtain ⟨s₁, hstep, hrun⟩ := hrun
    have h₁ := (h.step (hu op (.head _ ..)) hstep).1
    exact ih h₁ (fun o ho => hu o (.tail _ ho)) hrun (h.step_tracks hstep hm)

theorem summaryOption_eq_default {t : Option Shape}
    (hf : ∀ x, t = some x → x.Fits) (h : Shape.summaryOption crypto scope t = Summary.default) :
    t = none := by
  cases t with
  | none => rfl
  | some x =>
    have hcount : (x.summary crypto scope).count = 0 := congrArg Summary.count h
    exact absurd hcount (Shape.summary_count_ne_zero (hf x rfl))

theorem Session.Represents.find_planned (h : s.Represents K f)
    (hp : Tree.AllPlanned K s.tree scope) (hm : Tracks (f scope) m)
    (key : Id) : s.tree.find scope (s.roots scope) key = .ok (m[key]?.map fun v => v.node key, s.tree) := by
  have hroot := h.roots scope
  have hstored := h.stored scope
  cases hf : f scope with
  | none =>
    rw [hf] at hroot hm
    have hnone : m[key]? = none := Option.eq_none_iff_forall_ne_some.mpr fun v hv => by
      obtain ⟨t, ht, _⟩ := (hm key v).mpr hv
      simp at ht
    rw [hnone, hroot]
    rfl
  | some t =>
    rw [hf] at hroot hm hstored
    obtain ⟨hv, _, hfits⟩ := h.valid scope t hf
    rw [Tree.find, hroot, ← hm.get? hv]
    exact h.sound.findInner_planned h.collisionFree hp 258 hv hfits hstored (by omega)

theorem Session.Represents.remove_planned (h : s.Represents K f)
    (hp : Tree.AllPlanned K s.tree scope) (hm : Tracks (f scope) m) (key : Id) :
    (∃ root tree, s.tree.remove scope (s.roots scope) key = .ok (root, tree)) ↔ key ∈ m := by
  rw [Maps.mem_iff]
  constructor
  · rintro ⟨root, tree, hremove⟩
    have hstep : s.step (.remove scope key) = .ok ⟨tree, Function.update s.roots scope root⟩ := by
      rw [Session.step, Except.bind_of_ok hremove]
      rfl
    obtain ⟨⟨t, u, hf, hu⟩, _⟩ := h.remove hstep
    exact ⟨u, (hm key u).mp ⟨t, hf, hu⟩⟩
  · rintro ⟨u, hu⟩
    obtain ⟨t, hf, hleaf⟩ := (hm key u).mpr hu
    obtain ⟨hv, hkeys, hfits⟩ := h.valid scope t hf
    have hroot := h.roots scope
    have hstored := h.stored scope
    rw [hf] at hroot hstored
    rw [Tree.remove, hroot]
    exact h.sound.delete_planned 257 h.collisionFree hp hkeys hv hfits hstored ⟨u, hleaf⟩ (by omega)

omit P in
private theorem sum_owned (owner : UInt8) (g : Id × Payload → Nat) (l : List (Id × Payload)) :
    (l.map fun x => if x.2.owner = owner then g x else 0).sum =
      ((l.filter fun x => x.2.owner = owner).map g).sum := by
  induction l with
  | nil => rfl
  | cons x l ih =>
    by_cases hx : x.2.owner = owner
    · simp [hx, ih]
    · simp [hx, ih]

theorem Session.Represents.totals (h : s.Represents K f) (hm : Tracks (f scope) m) :
    (s.roots scope).count.toNat = m.size ∧ ∀ owner ≤ 1, ((s.roots scope).used.get owner).toNat =
          ((m.toList.filter fun x => x.2.owner = owner).map fun x => x.2.charge).sum ∧
        ((s.roots scope).reserved.get owner).toNat =
          ((m.toList.filter fun x => x.2.owner = owner).map fun x => x.2.reserved.toNat).sum := by
  have hroot := h.roots scope
  cases hf : f scope with
  | none =>
    rw [hf] at hroot hm
    have hempty : m.toList = [] := List.eq_nil_iff_forall_not_mem.mpr fun x hx => by
      obtain ⟨t, ht, _⟩ := (hm x.1 x.2).mpr (Std.TreeMap.mem_toList_iff_getElem?_eq_some.mp hx)
      simp at ht
    rw [hroot, ← Std.TreeMap.length_toList, hempty]
    refine ⟨rfl, fun owner howner => ?_⟩
    rcases Two.eq_zero_or_one howner with rfl | rfl <;> exact ⟨rfl, rfl⟩
  | some t =>
    rw [hf] at hroot hm
    obtain ⟨hv, _, hcount, hused, hreserved⟩ := h.valid scope t hf
    have hperm := hm.perm hv
    rw [hroot, ← Std.TreeMap.length_toList, ← hperm.length_eq]
    refine ⟨UInt64.toNat_ofNat_of_lt' hcount, fun owner howner => ?_⟩
    have hu : t.used owner = ((m.toList.filter fun x => x.2.owner = owner).map fun x => x.2.charge).sum := by
      rw [← sum_owned]
      exact (hperm.map _).sum_eq
    have hr : t.reserved owner =
        ((m.toList.filter fun x => x.2.owner = owner).map fun x => x.2.reserved.toNat).sum := by
      rw [← sum_owned]
      exact (hperm.map _).sum_eq
    rw [← hu, ← hr]
    rcases Two.eq_zero_or_one howner with rfl | rfl
    · exact ⟨UInt64.toNat_ofNat_of_lt' (hused 0), UInt64.toNat_ofNat_of_lt' (hreserved 0)⟩
    · exact ⟨UInt64.toNat_ofNat_of_lt' (hused 1), UInt64.toNat_ofNat_of_lt' (hreserved 1)⟩

/-- The index refines a finite map. Over a table that stores exactly what its roots reach, and from
an empty root of the scope, every session looks up the leaf last put under a key, removes exactly
the keys that are present, and keeps the exact totals in the root. -/
theorem run_refines_map {crypto : Crypto} {table : Std.TreeMap Id Bytes} {roots : UInt8 → Summary}
    (hK : CollisionFree crypto K) (h : StoresExactly crypto table roots)
    (hkeys : ∀ scope row, Reach crypto table scope (0, 0) (roots scope) row → row.2.bits = 256 → row.2.pfx ∈ K)
    (layout : Layout) {ops : List Op} (hops : ∀ op ∈ ops, op.Uses K)
    (hempty : roots scope = Summary.default)
    (hrun : (Session.start table crypto layout roots).run ops = .ok s) :
    (∀ key, ∃ tree, s.tree.find scope (s.roots scope) key =
      .ok ((liveLeaves scope ops)[key]?.map fun v => v.node key, tree)) ∧
    (∀ key, (∃ e, s.tree.remove scope (s.roots scope) key = .error e) ↔ key ∉ liveLeaves scope ops) ∧
    (s.roots scope).count.toNat = (liveLeaves scope ops).size ∧ ∀ owner ≤ 1, ((s.roots scope).used.get owner).toNat =
        (((liveLeaves scope ops).toList.filter fun x => x.2.owner = owner).map
          fun x => x.2.charge).sum ∧
      ((s.roots scope).reserved.get owner).toNat =
        (((liveLeaves scope ops).toList.filter fun x => x.2.owner = owner).map
          fun x => x.2.reserved.toNat).sum := by
  obtain ⟨f, hpub, hroots⟩ := h.published hkeys
  have hstart := hpub.start hK layout hroots
  have hnone : f scope = none := summaryOption_eq_default (fun x hx => (hpub.valid scope x hx).2.2)
      ((hroots scope).symm.trans hempty)
  have hplanned : Tree.AllPlanned K (Tree.new table crypto layout) scope := by
    intro e he
    have hstored := hstart.stored scope
    rw [hnone] at hstored
    exact absurd (hstored e (Session.below_root e)) he
  obtain ⟨hrep, hkeeps⟩ := hstart.run hops hrun
  have htracks : Tracks (ops.foldl Op.effect f scope) (liveLeaves scope ops) :=
    hstart.run_tracks hops hrun (hnone ▸ tracks_none)
  have hp := hkeeps.planned scope hplanned
  refine ⟨fun key => ⟨s.tree, hrep.find_planned hp htracks key⟩, fun key => ?_, hrep.totals htracks⟩
  rw [← hrep.remove_planned hp htracks key]
  cases s.tree.remove scope (s.roots scope) key with
  | error e => simp
  | ok r =>
    obtain ⟨root, tree⟩ := r
    simp

/-- The sessions reached from the empty table by any operations and any number of publications,
with the map of each scope. Envelopes must open again only where a publication is crossed. -/
inductive Produced (K : Set Id) (crypto : Crypto) : Session → (UInt8 → Std.TreeMap Id Payload) → Prop
  | start (layout : Layout) : Produced K crypto (Session.start ∅ crypto layout fun _ => Summary.default) fun _ => ∅
  | step {s s' : Session} {live : UInt8 → Std.TreeMap Id Payload} {op : Op}
      (h : Produced K crypto s live) (huses : op.Uses K) (hstep : s.step op = .ok s') :
      Produced K crypto s' fun scope => op.record scope (live scope)
  | commit {s : Session} {live : UInt8 → Std.TreeMap Id Payload} {nonces : Id → Option Nonce}
      {tr : Tree} (h : Produced K crypto s live) (hP : P.OpensWhatItSealed)
      (hseal : s.tree.sealChanges nonces = .ok tr) (layout : Layout) :
      Produced K crypto (Session.start tr.publish crypto layout s.roots) live

theorem Produced.represents (hK : CollisionFree crypto K) (h : Produced K crypto s live) :
    ∃ f, s.Represents K f ∧ s.tree.crypto = crypto ∧ ∀ scope, Tracks (f scope) (live scope) := by
  induction h with
  | start layout =>
    obtain ⟨f, hpub, hroots⟩ := (storesExactly_empty crypto).published (K := K)
      fun _ _ hr _ => absurd hr not_reach_default
    refine ⟨f, hpub.start hK layout hroots, rfl, fun scope => ?_⟩
    have hnone : f scope = none := summaryOption_eq_default
      (fun x hx => (hpub.valid scope x hx).2.2) (hroots scope).symm
    exact hnone ▸ tracks_none
  | step _ huses hstep ih =>
    obtain ⟨f, hrep, hcrypto, htracks⟩ := ih
    obtain ⟨hrep', hkeeps⟩ := hrep.step huses hstep
    exact ⟨_, hrep', hkeeps.crypto.trans hcrypto, fun scope => hrep.step_tracks hstep (htracks scope)⟩
  | commit _ hP hseal layout ih =>
    obtain ⟨f, hrep, hcrypto, htracks⟩ := ih
    have hpub := hrep.published hP hseal
    rw [hcrypto] at hpub
    refine ⟨f, hpub.start hK layout fun scope => ?_, rfl, htracks⟩
    rw [← hcrypto]
    exact hrep.roots scope

theorem Produced.run (h : Produced K crypto s live) {ops : List Op} (hops : ∀ op ∈ ops, op.Uses K)
    (hrun : s.run ops = .ok s') :
    Produced K crypto s' fun scope => ops.foldl (Op.record scope) (live scope) := by
  induction ops generalizing s live with
  | nil =>
    cases hrun
    exact h
  | cons op ops ih =>
    simp only [Session.run, List.foldlM_cons, Except.ok_iff] at hrun
    obtain ⟨s₁, hstep, hrun⟩ := hrun
    exact ih (h.step (hops op (.head _ ..)) hstep) (fun o ho => hops o (.tail _ ho)) hrun

/-- Two produced sessions with the same leaves in a scope have the same root there. -/
theorem Produced.root_eq {K' : Set Id} (hK : CollisionFree crypto K)
    (hK' : CollisionFree crypto K') {live' : UInt8 → Std.TreeMap Id Payload}
    (h : Produced K crypto s live) (h' : Produced K' crypto s' live')
    (heq : ∀ k : Id, (live scope)[k]? = (live' scope)[k]?) : s.roots scope = s'.roots scope := by
  obtain ⟨f, hrep, hcrypto, htracks⟩ := h.represents hK
  obtain ⟨f', hrep', hcrypto', htracks'⟩ := h'.represents hK'
  have hsame : f scope = f' scope := (htracks scope).unique (htracks' scope)
    (fun t ht => (hrep.valid scope t ht).1) (fun t ht => (hrep'.valid scope t ht).1) heq
  rw [hrep.roots scope, hrep'.roots scope, hcrypto, hcrypto', hsame]

/-- The root is history-independent. Whatever operations and publications led there, the same live
leaves give the same root summary, digest included. Removing a key just put restores the root, and
no leaves give the default summary. -/
theorem root_history_independent {crypto : Crypto} {K' : Set Id} (hK : CollisionFree crypto K)
    (hK' : CollisionFree crypto K') {live live' : UInt8 → Std.TreeMap Id Payload}
    (h : Produced K crypto s live) (h' : Produced K' crypto s' live') :
    (∀ scope, (∀ k : Id, (live scope)[k]? = (live' scope)[k]?) → s.roots scope = s'.roots scope) ∧
    (∀ scope key value s'', key ∈ K → key ∉ live scope →
      s.run [.put scope key value, .remove scope key] = .ok s'' → s''.roots scope = s.roots scope) ∧
    ∀ scope, (∀ k : Id, (live scope)[k]? = none) → s.roots scope = Summary.default := by
  refine ⟨fun scope heq => h.root_eq hK hK' h' heq, fun scope key value s'' hkey hnew hrun => ?_,
    fun scope hempty => ?_⟩
  · have hops : ∀ op ∈ [Op.put scope key value, .remove scope key], op.Uses K := by
      simp [Op.Uses, hkey]
    refine (h.run hops hrun).root_eq hK hK h fun k => ?_
    simp only [List.foldl_cons, List.foldl_nil, Op.record, if_true, Maps.get_erase, Maps.get_insert]
    by_cases hk : key = k
    · subst hk
      rw [if_pos rfl, (Maps.not_mem_iff _ _).mp hnew]
    · rw [if_neg hk, if_neg hk]
  · have hstart : Produced K crypto (Session.start ∅ crypto ⟨0, 0, id⟩ fun _ => Summary.default)
        fun _ => ∅ := Produced.start _
    have hroot : s.roots scope = Summary.default := h.root_eq hK hK hstart fun k => by
      rw [hempty k]
      simp
    exact hroot

end

/-- The sample session, looked at in its first scope. -/
theorem run_refines_map_sample : ∃ s, @Session.run Primitives.plain (Session.start ∅ Crypto.blank sampleLayout
      fun _ => Summary.default) sampleOps = .ok s ∧
    (s.roots 0).count.toNat = (liveLeaves 0 sampleOps).size := by
  obtain ⟨s, hrun⟩ := Except.exists_of_isOk (x := @Session.run Primitives.plain (Session.start ∅
    Crypto.blank sampleLayout fun _ => Summary.default) sampleOps) (by decide +kernel)
  have h := @run_refines_map Primitives.plain _ _ 0 _ _ _ collisionFree_plain
    (@storesExactly_empty Primitives.plain Crypto.blank)
    (fun _ _ hr _ => absurd hr (@not_reach_default Primitives.plain _ _ _ _ _)) sampleLayout _
    sampleOps_uses rfl hrun
  exact ⟨s, hrun, h.2.2.1⟩

/-- The sample session and a session that only puts the surviving leaf have the same root. -/
theorem root_history_independent_sample : ∃ s s',
    @Session.run Primitives.plain (Session.start ∅ Crypto.blank sampleLayout
      fun _ => Summary.default) sampleOps = .ok s ∧
    @Session.run Primitives.plain (Session.start ∅ Crypto.blank sampleLayout
      fun _ => Summary.default) [.put 0 (BitVec.ofNat 256 (2 ^ 255)) sampleSecond] = .ok s' ∧
    s.roots 0 = s'.roots 0 := by
  obtain ⟨s, hrun⟩ := Except.exists_of_isOk (x := @Session.run Primitives.plain (Session.start ∅
    Crypto.blank sampleLayout fun _ => Summary.default) sampleOps) (by decide +kernel)
  obtain ⟨s', hrun'⟩ := Except.exists_of_isOk (x := @Session.run Primitives.plain (Session.start ∅
    Crypto.blank sampleLayout fun _ => Summary.default)
    [.put 0 (BitVec.ofNat 256 (2 ^ 255)) sampleSecond]) (by decide +kernel)
  have hstart := @Produced.start Primitives.plain {0, BitVec.ofNat 256 (2 ^ 255)} Crypto.blank
    sampleLayout
  have hp := @Produced.run Primitives.plain _ _ _ _ _ hstart _ sampleOps_uses hrun
  have hp' := @Produced.run Primitives.plain _ _ _ _ _ hstart _ (by simp [Op.Uses]) hrun'
  refine ⟨s, s', hrun, hrun', (root_history_independent (P := Primitives.plain) collisionFree_plain
    collisionFree_plain hp hp').1 0 fun k => ?_⟩
  have hscope : ¬ (3 : UInt8) = 0 := by decide
  simp only [sampleOps, List.foldl_cons, List.foldl_nil, Op.record, if_true, if_neg hscope,
    Maps.get_erase, Maps.get_insert]
  by_cases hk : 0 = k
  · have htop : ¬ BitVec.ofNat 256 (2 ^ 255) = k := by
      rw [← hk]
      decide +kernel
    rw [if_pos hk, if_neg htop]
    simp
  · rw [if_neg hk, if_neg hk]

end Kilogram.Index
