import Kilogram.State.Workspaces
import Kilogram.State.Primary

/-!
# What a transaction stages

A transaction stages what differs from its baselines.
-/

namespace Kilogram.State
open Crash Crash.Prog FileSystem StateTransaction
open List (foldl_cons mem_append mem_cons mem_dedup mem_filter mem_map)
open Except (bind_eq_ok pure_eq_ok)

/-- The mutations seen so far lie over the index; upserts and removals are the difference to it. -/
structure Staging.Covers (active : Records) (done : List StagedStateMutation) (s : Staging) : Prop where
  seen : ∀ p, p ∈ s.seen ↔ ∃ x ∈ done, x.relativePath = p
  staged : ∀ x ∈ done, s.staged.lookup x.relativePath = x.content
  other : ∀ p, p ∉ s.seen → s.staged.lookup p = active.lookup p
  upserts : ∀ p c, s.upserts.lookup p = some c ↔ s.staged.lookup p = some c ∧ active.lookup p ≠ some c
  removals : ∀ p, p ∈ s.removals ↔ s.staged.lookup p = none ∧ active.lookup p ≠ none

namespace Staging
variable {active : Records} {s s' : Staging} {done : List StagedStateMutation} {x : StagedStateMutation}

theorem Covers.lookup_upserts_of_not_seen (h : Covers active done s) {p : Path} (hp : p ∉ s.seen) :
    s.upserts.lookup p = none := by
  by_contra hne
  obtain ⟨c, hc⟩ := Option.ne_none_iff_exists'.mp hne
  obtain ⟨hstaged, hactive⟩ := (h.upserts p c).mp hc
  exact hactive ((h.other p hp).symm.trans hstaged)

theorem Covers.notMem_removals_of_not_seen (h : Covers active done s) {p : Path} (hp : p ∉ s.seen) :
    p ∉ s.removals := by
  intro hmem
  obtain ⟨hstaged, hactive⟩ := (h.removals p).mp hmem
  exact hactive ((h.other p hp).symm.trans hstaged)

theorem Covers.upsert {c : Content} (h : Covers active done s) (hx : x.relativePath ∉ s.seen)
    (hc : x.content = some c)
    (hs : Staging.upsert active { s with seen := x.relativePath :: s.seen } x c = .ok s') :
    Covers active (x :: done) s' := by
  simp only [Staging.upsert, Except.ok_iff] at hs
  obtain ⟨_, -, _, -, rfl⟩ := hs
  have hlookup (p : Path) : (s.staged.insert x.relativePath c).lookup p =
      if p = x.relativePath then some c else s.staged.lookup p := by
    split_ifs with hp
    · rw [hp, Finmap.lookup_insert]
    · exact Finmap.lookup_insert_of_ne _ hp
  have hne (y : StagedStateMutation) (hy : y ∈ done) : y.relativePath ≠ x.relativePath := fun heq =>
    hx ((h.seen _).mpr ⟨y, hy, heq⟩)
  refine ⟨fun p => ?_, fun y hy => ?_, fun p hp => ?_, fun p c' => ?_, fun p => ?_⟩
  · rw [mem_cons, h.seen, List.exists_mem_cons_iff, eq_comm]
  · simp only [hlookup]
    rcases mem_cons.mp hy with rfl | hy
    · rw [if_pos rfl, hc]
    · rw [if_neg (hne y hy), h.staged y hy]
  · obtain ⟨hp₁, hp₂⟩ := not_or.mp (mem_cons.not.mp hp)
    simp only [hlookup, if_neg hp₁]
    exact h.other p hp₂
  · simp only [hlookup]
    by_cases hp : p = x.relativePath
    · subst hp
      rw [if_pos rfl]
      by_cases hactive : active.lookup x.relativePath = some c
      · rw [if_neg (not_not.mpr hactive), h.lookup_upserts_of_not_seen hx, hactive]
        simp
      · rw [if_pos hactive, AList.lookup_insert]
        constructor
        · rintro ⟨⟩
          exact ⟨rfl, hactive⟩
        · exact fun h => h.1
    · rw [if_neg hp]
      split_ifs
      · rw [AList.lookup_insert_ne hp]
        exact h.upserts p c'
      · exact h.upserts p c'
  · simp only [hlookup, List.erase_of_not_mem (h.notMem_removals_of_not_seen hx)]
    split_ifs with hp
    · simp only [false_and, iff_false]
      rw [hp]
      exact h.notMem_removals_of_not_seen hx
    · exact h.removals p

theorem Covers.remove (h : Covers active done s) (hx : x.relativePath ∉ s.seen) (hc : x.content = none) :
    Covers active (x :: done)
      (Staging.remove active { s with seen := x.relativePath :: s.seen } x.relativePath) := by
  have hlookup (p : Path) : (s.staged.erase x.relativePath).lookup p =
      if p = x.relativePath then none else s.staged.lookup p := by
    split_ifs with hp
    · rw [hp, Finmap.lookup_erase]
    · exact Finmap.lookup_erase_ne hp
  have hne (y : StagedStateMutation) (hy : y ∈ done) : y.relativePath ≠ x.relativePath := fun heq =>
    hx ((h.seen _).mpr ⟨y, hy, heq⟩)
  have hstaged : x.relativePath ∈ s.staged ↔ x.relativePath ∈ active := by
    rw [Finmap.mem_iff, Finmap.mem_iff, h.other _ hx]
  refine ⟨fun p => ?_, fun y hy => ?_, fun p hp => ?_, fun p c' => ?_, fun p => ?_⟩
  · rw [Staging.remove, mem_cons, h.seen, List.exists_mem_cons_iff, eq_comm]
  · simp only [Staging.remove, hlookup]
    rcases mem_cons.mp hy with rfl | hy
    · rw [if_pos rfl, hc]
    · rw [if_neg (hne y hy), h.staged y hy]
  · obtain ⟨hp₁, hp₂⟩ := not_or.mp (mem_cons.not.mp hp)
    simp only [Staging.remove, hlookup, if_neg hp₁]
    exact h.other p hp₂
  · simp only [Staging.remove, hlookup]
    by_cases hp : p = x.relativePath
    · rw [hp, AList.lookup_erase, if_pos rfl]
      simp
    · rw [if_neg hp, AList.lookup_erase_ne hp]
      exact h.upserts p c'
  · simp only [Staging.remove, hlookup, hstaged, and_self]
    have hactive : x.relativePath ∈ active ↔ active.lookup x.relativePath ≠ none := by
      rw [Finmap.mem_iff, Option.ne_none_iff_exists']
    by_cases hp : p = x.relativePath
    · rw [if_pos hp, hp]
      split_ifs with hmem
      · simpa using hactive.mp hmem
      · simp only [true_and]
        exact iff_of_false (h.notMem_removals_of_not_seen hx) fun hne => hmem (hactive.mpr hne)
    · rw [if_neg hp]
      split_ifs
      · rw [List.mem_insert_iff, or_iff_right hp]
        exact h.removals p
      · exact h.removals p

theorem Covers.step (h : Covers active done s) (hs : s.step active x = .ok s') : Covers active (x :: done) s' := by
  obtain ⟨_, -, hs⟩ := bind_eq_ok.mp hs
  obtain ⟨_, -, hs⟩ := bind_eq_ok.mp hs
  obtain ⟨_, hseen, hs⟩ := bind_eq_ok.mp hs
  obtain ⟨_, -, hs⟩ := bind_eq_ok.mp hs
  have hx := Except.failIf_eq_ok.mp hseen
  cases hc : x.content with
  | some c =>
    simp only [hc] at hs
    exact h.upsert hx hc hs
  | none =>
    simp only [hc] at hs
    obtain rfl := pure_eq_ok.mp hs
    exact h.remove hx hc

theorem Covers.foldlM {l : List StagedStateMutation} (h : Covers active done s)
    (hs : l.foldlM (Staging.step active) s = .ok s') : Covers active (l.reverse ++ done) s' := by
  induction l generalizing s done with
  | nil =>
    obtain rfl := pure_eq_ok.mp hs
    exact h
  | cons x l ih =>
    obtain ⟨s₁, h₁, hs⟩ := bind_eq_ok.mp hs
    rw [List.reverse_cons, List.append_assoc]
    exact ih (h.step h₁) hs

end Staging

theorem lookup_foldl_erase (removals : List Path) (r : Records) (q : Path) :
    (removals.foldl (fun r p => r.erase p) r).lookup q = if q ∈ removals then none else r.lookup q := by
  induction removals generalizing r with
  | nil => rfl
  | cons p l ih =>
    rw [foldl_cons, ih]
    by_cases hq : q = p
    · rw [hq, Finmap.lookup_erase]
      simp
    · rw [Finmap.lookup_erase_ne hq]
      simp [hq]

theorem lookup_foldl_insert_of_not (l : List (Path × Content)) (r : Records) {q : Path}
    (hq : ∀ c, (q, c) ∉ l) : (l.foldl (fun r x => r.insert x.1 x.2) r).lookup q = r.lookup q := by
  induction l generalizing r with
  | nil => rfl
  | cons x l ih =>
    rw [foldl_cons, ih _ fun c hc => hq c (.tail _ hc)]
    refine Finmap.lookup_insert_of_ne _ fun heq => hq x.2 ?_
    rw [heq]
    exact List.mem_cons_self

theorem lookup_foldl_insert {l : List (Path × Content)} (hnodup : (l.map Prod.fst).Nodup) (r : Records)
    {q : Path} {c : Content} (hq : (q, c) ∈ l) :
    (l.foldl (fun r x => r.insert x.1 x.2) r).lookup q = some c := by
  induction l generalizing r with
  | nil => cases hq
  | cons x l ih =>
    rw [List.map_cons, List.nodup_cons] at hnodup
    rw [foldl_cons]
    rcases mem_cons.mp hq with rfl | hq
    · rw [lookup_foldl_insert_of_not l _ fun c' hc' => hnodup.1 (mem_map.mpr ⟨_, hc', rfl⟩)]
      exact Finmap.lookup_insert _
    · exact ih hnodup.2 _ hq

theorem Staging.Covers.apply {active : Records} {done : List StagedStateMutation} {s : Staging}
    (h : Covers active done s) : s.delta.apply active = s.staged := by
  refine Finmap.ext_lookup fun p => ?_
  have hnodup : ((s.upserts.entries.map fun x => (x.1, x.2)).map Prod.fst).Nodup := by
    rw [List.map_map]
    exact s.upserts.keys_nodup
  unfold Database.Delta.apply Staging.delta
  cases hup : s.upserts.lookup p with
  | some c =>
    have hmem : (p, c) ∈ s.upserts.entries.map fun x => (x.1, x.2) :=
      mem_map.mpr ⟨⟨p, c⟩, AList.mem_lookup_iff.mp hup, rfl⟩
    rw [lookup_foldl_insert hnodup _ hmem]
    exact ((h.upserts p c).mp hup).1.symm
  | none =>
    rw [lookup_foldl_insert_of_not, lookup_foldl_erase]
    · split_ifs with hrem
      · exact ((h.removals p).mp hrem).1.symm
      · cases hstaged : s.staged.lookup p with
        | some c =>
          by_contra hne
          rw [(h.upserts p c).mpr ⟨hstaged, hne⟩] at hup
          cases hup
        | none =>
          by_contra hne
          exact hrem ((h.removals p).mpr ⟨hstaged, hne⟩)
    · intro c hmem
      obtain ⟨x, hx, heq⟩ := mem_map.mp hmem
      cases heq
      rw [mem_of_entries hx] at hup
      cases hup

theorem classify_of_ratchet (h : Below [ratchetDirectory] p) : classifyRecordKind p = .ratchet := by
  obtain ⟨r, rfl⟩ := h.1
  rfl

theorem classify_of_trustPath (h : TrustPath p) : classifyRecordKind p = .trust := by
  have hnames : ∀ name ∈ trustFiles ++ trustDirectories, ∀ r, classifyRecordKind (name :: r) = .trust := by
    have hfirst : ∀ name ∈ trustFiles ++ trustDirectories, ¬ (name = deviceSecretPath ∨
        name = deviceEncryptionSecretPath) ∧ classifyFirst name = .trust := by decide
    intro name hn r
    obtain ⟨hdevice, hkind⟩ := hfirst name hn
    rw [classifyRecordKind, if_neg hdevice, hkind]
  rcases h with ⟨name, hn, rfl⟩ | ⟨name, hn, ⟨r, rfl⟩, -⟩
  · exact hnames name (List.mem_append_left _ hn) []
  · exact hnames name (List.mem_append_right _ hn) r

/-- What a direct write is about: the workspaces, those of trust files if prepared, and the records that were registered or compacted. -/
def StateTransaction.Covered (t : StateTransaction) (p : Path) : Prop :=
  Below [ratchetDirectory] p ∨ p = [nextSequenceFile] ∨ t.trustPrimaryBaseline.isSome ∧ TrustPath p ∨
    p ∈ t.appendOnlyWrites ∨ p ∈ t.appendOnlyRemovals
  deriving Decidable

/-- What is compared with the directory at the beginning of the transaction and not with the vault: the
sequence file, and the ratchet files where their workspace was not prepared. -/
def StateTransaction.Shadowed (t : StateTransaction) (p : Path) : Prop :=
  (p = [nextSequenceFile] ∨ t.ratchetPrimaryBaseline = none ∧ Below [ratchetDirectory] p) ∧
    p ∉ t.appendOnlyWrites ∧ p ∉ t.appendOnlyRemovals

theorem StateTransaction.Shadowed.covered {t : StateTransaction} {p : Path} (h : t.Shadowed p) : t.Covered p := by
  rcases h.1 with hseq | ⟨-, hratchet⟩
  · exact .inr (.inl hseq)
  · exact .inl hratchet

/-- Mutations that lead from `base` to the files at the given places. -/
structure Mutates (S : Path → Prop) (base : Path → Option Content) (fs : FileSystem)
    (l : List StagedStateMutation) : Prop where
  place : ∀ x ∈ l, S x.relativePath
  content : ∀ x ∈ l, x.content = fs.file x.relativePath
  complete : ∀ p, S p → (∃ x ∈ l, x.relativePath = p) ∨ fs.file p = base p
  changed : ∀ x ∈ l, fs.file x.relativePath ≠ base x.relativePath

theorem Mutates.congr {S : Path → Prop} {base base' : Path → Option Content} {fs : FileSystem}
    {l : List StagedStateMutation} (h : Mutates S base fs l) (hbase : ∀ p, S p → base p = base' p) :
    Mutates S base' fs l :=
  ⟨h.place, h.content, fun p hp => (h.complete p hp).imp_right fun heq => heq.trans (hbase p hp),
    fun x hx => hbase _ (h.place x hx) ▸ h.changed x hx⟩

section
variable {sys : System} {C : Disk → Prop} {E : StateError → Disk → Prop}
  {m : TransactionManifest} {T : Target} {d : Disk} {t : StateTransaction}
  {Q : List StagedStateMutation → Disk → Prop}

end
end Kilogram.State
