import Kilogram.State.FileSteps

/-!
# What the journal of a transaction keeps

The journal of a transaction that was neither committed nor rolled back determines what the managed
files are after a rollback.
-/

namespace Kilogram.State
open Crash Crash.Prog FileSystem
open List (prefix_append)

/-- The first component of the path is one of the names. -/
def Zone (names : List String) (p : Path) : Prop := ∃ name ∈ names, p.head? = some name

variable {p : Path} {m : TransactionManifest}
variable {names : List String} {fs fs' : FileSystem} {T : Target} {S : Path → Prop}

theorem Zone.not_of_disjoint (hp : Zone names p) (names' : List String)
    (h : ∀ n ∈ names, n ∉ names') : ¬ Zone names' p := by
  rintro ⟨n', hn', h'⟩
  obtain ⟨n, hn, hp⟩ := hp
  cases hp.symm.trans h'
  exact h _ hn hn'

theorem zone_of_below {name : String} {dir : Path} (hn : name ∈ names)
    (hdir : dir.head? = some name) (h : dir <+: p) : Zone names p := by
  obtain ⟨r, rfl⟩ := h
  refine ⟨name, hn, ?_⟩
  cases dir with
  | nil => cases hdir
  | cons x dir => exact hdir

theorem zone_of_active (h : activeDirectory <+: p) : Zone [transactionDirectory] p := zone_of_below (.head _) rfl h

def AppendOnly (p : Path) : Prop := ∃ name ∈ appendOnlyRoots, Below [name] p

def TrustPath (p : Path) : Prop := (∃ name ∈ trustFiles, p = [name]) ∨ ∃ name ∈ trustDirectories, Below [name] p
  deriving Decidable

theorem AppendOnly.zone (h : AppendOnly p) : Zone appendOnlyRoots p := by
  obtain ⟨name, hn, hp⟩ := h
  exact zone_of_below hn rfl hp.1

theorem TrustPath.zone (h : TrustPath p) : Zone (trustFiles ++ trustDirectories) p := by
  rcases h with ⟨name, hn, rfl⟩ | ⟨name, hn, hp⟩
  · exact ⟨name, List.mem_append_left _ hn, rfl⟩
  · exact zone_of_below (List.mem_append_right _ hn) rfl hp.1

def fileNames : List String := nextSequenceFile :: trustFiles
def treeNames : List String := ratchetDirectory :: trustDirectories ++ appendOnlyRoots

/-- What may stand at a path: a name of a file is not that of a directory and the other way round,
append-only files have proper names, and the account is not the fence of an ordered profile. -/
def Allowed (p : Path) : Node → Prop
  | .directory => ¬ Zone fileNames p
  | .file c => (∀ name ∈ treeNames, p ≠ [name]) ∧ (∀ name ∈ fileNames, ¬ Below [name] p) ∧
      (AppendOnly p → ValidRelative p) ∧ (p = accountPickle → c ≠ orderedAccountFence)

def Orderly (fs : FileSystem) : Prop := ∀ p n, fs.lookup p = some n → Allowed p n

theorem allowed_of_active (h : activeDirectory <+: p) (n : Node) : Allowed p n := by
  have hz := zone_of_active h
  cases n with
  | directory => exact hz.not_of_disjoint _ (by decide)
  | file c =>
    refine ⟨?_, ?_, ?_, ?_⟩
    · rintro name hn rfl
      exact hz.not_of_disjoint treeNames (by decide) ⟨name, hn, rfl⟩
    · intro name hn hp
      exact hz.not_of_disjoint fileNames (by decide) (zone_of_below hn rfl hp.1)
    · intro hp
      exact absurd hp.zone (hz.not_of_disjoint _ (by decide))
    · rintro rfl
      exact absurd hz (by unfold Zone; decide)

namespace Orderly
variable {fs fs' : FileSystem} {d d' : Disk}
variable {name : String}

theorem file_eq_none (h : Orderly fs) (hn : name ∈ treeNames) : fs.file [name] = none := by
  by_contra hne
  obtain ⟨c, hc⟩ := Option.ne_none_iff_exists'.mp hne
  exact (h _ _ (file_eq_some.mp hc)).1 name hn rfl

theorem not_isDirectory (h : Orderly fs) (hn : name ∈ fileNames) : ¬ fs.IsDirectory [name] := by
  rintro ⟨hfile, hex⟩
  obtain ⟨q, hq, hne⟩ := exists_iff.mp hex
  obtain ⟨n, hl⟩ := Option.ne_none_iff_exists'.mp hne
  have hallowed := h _ _ hl
  cases n with
  | directory => exact hallowed (zone_of_below hn rfl hq)
  | file c =>
    by_cases heq : q = [name]
    · rw [FileSystem.file, ← heq, hl] at hfile
      cases hfile
    · exact hallowed.2.1 name hn ⟨hq, heq⟩

theorem not_hasOrderedFence (h : Orderly fs) : ¬ HasOrderedFence fs :=
  fun hfence => (h _ _ (file_eq_some.mp hfence)).2.2.2 rfl rfl

theorem valid (h : Orderly fs) {p : Path} (hp : AppendOnly p) (hne : fs.file p ≠ none) : ValidRelative p := by
  obtain ⟨c, hc⟩ := Option.ne_none_iff_exists'.mp hne
  exact (h _ _ (file_eq_some.mp hc)).2.2.1 hp

theorem of_within (h : Orderly d.files) {S : Path → Prop} (hw : Within S d d')
    (hS : ∀ p n, S p → d'.files.lookup p = some n → Allowed p n) : Orderly d'.files := by
  intro p n hn
  by_cases hp : S p
  · exact hS p n hp hn
  · rw [hw.lookup p hp] at hn
    exact h p n hn

theorem of_subset (h : Orderly fs) (hs : ∀ p, fs'.lookup p = fs.lookup p ∨ fs'.lookup p = none) : Orderly fs' := by
  intro p n hn
  rcases hs p with heq | hnone
  · exact h p n (heq ▸ hn)
  · rw [hnone] at hn
    cases hn

end Orderly

/-- The contents of the managed files; trust files only where their workspace was prepared. Paths of
the ratchet are relative to its directory. The sequence file and the vault at the beginning are not
gone back to, but they stay as they were. -/
structure Target where
  database : Option Database
  shadow : Option Content
  ratchet : Path → Option Content
  sequence : Option Content
  trust : Option (Path → Option Content)
  appendOnly : Path → Option Content

structure Matches (T : Target) (fs : FileSystem) : Prop where
  ratchet : ∀ r, r ≠ [] → fs.file (ratchetDirectory :: r) = T.ratchet r
  sequence : fs.file [nextSequenceFile] = T.sequence
  trust : ∀ contents, T.trust = some contents → ∀ p, TrustPath p → fs.file p = contents p
  appendOnly : ∀ p, AppendOnly p → fs.file p = T.appendOnly p

/-- The names and contents of a target are those of an orderly directory. -/
structure Target.Sound (T : Target) : Prop where
  names : ∀ r, r ≠ [] → T.ratchet r ≠ none → ValidRelative r
  fence : T.ratchet ["account.pickle"] ≠ some orderedAccountFence
  trust : ∀ contents, T.trust = some contents → ∀ p, contents p ≠ none → TrustPath p ∧ ValidRelative p

/-- The backup of a tree that existed holds its contents; no tree, no contents. -/
def TreeBackup (fs : FileSystem) (source : Bool × Path) (contents : Path → Option Content) : Prop :=
  if source.1 then fs.Exists source.2 ∧ fs.file source.2 = none ∧ ∀ r, r ≠ [] → fs.file (source.2 ++ r) = contents r
  else ∀ r, r ≠ [] → contents r = none

/-- What stands in the journal keeps the target `T`, read by the manifest `m`. -/
structure Backups (fs : FileSystem) (m : TransactionManifest) (T : Target) : Prop where
  directory : fs.file activeDirectory = none
  prepared : fs.Exists preparedMarker
  committed : ¬ fs.Exists committedMarker
  rolledBack : ¬ fs.Exists rolledBackMarker
  version : m.version = manifestVersion
  shadow : T.shadow = if m.nextSequenceExisted then fs.file sequenceBackup else none
  ratchet : TreeBackup fs (ratchetSource m) T.ratchet
  sequence : T.sequence = if (sequenceSource m).1 then fs.file (sequenceSource m).2 else none
  sequenceExisted : (sequenceSource m).1 → T.sequence ≠ none
  trust : if m.trustPrimaryPrepared then ∃ contents, T.trust = some contents ∧
      fs.Exists trustPrimaryBackup ∧ fs.file trustPrimaryBackup = none ∧
      ∀ p, p ≠ [] → fs.file (trustPrimaryBackup ++ p) = contents p
    else T.trust = none
  appendOnly : ∀ p, p ∈ m.appendOnlyFiles → ValidRelative p ∧ AppendOnly p
  nested : ∀ p ∈ m.appendOnlyFiles, ∀ q ∈ m.appendOnlyFiles, ¬ Below p q
  mem_appendOnly : ∀ p, AppendOnly p → (p ∈ m.appendOnlyFiles ↔ T.appendOnly p ≠ none)
  compacted : ∀ p ∈ m.compactedAppendOnlyFiles, stateRecordKindForPath p = .runtime ∧
    p ∈ m.appendOnlyFiles ∧ fs.file (compactionBackupDirectory ++ p) = T.appendOnly p

structure Journal (fs : FileSystem) (m : TransactionManifest) (T : Target) : Prop
    extends Backups fs m T where
  manifest : fs.file manifestFile = some (.manifest m)

/-- The append-only files that were not compacted are still there. -/
def Kept (fs : FileSystem) (m : TransactionManifest) (T : Target) : Prop :=
  ∀ p ∈ m.appendOnlyFiles, p ∉ m.compactedAppendOnlyFiles → fs.file p = T.appendOnly p

/-- A transaction is on its way. -/
structure Live (m : TransactionManifest) (T : Target) (d : Disk) : Prop where
  journal : Journal d.files m T
  kept : Kept d.files m T
  orderly : Orderly d.files
  sound : T.Sound
  database : d.database = T.database

/-- The places that the manifest `m` reads, compacted files apart. -/
def journalRoots (m : TransactionManifest) : List Path :=
  [preparedMarker, committedMarker, rolledBackMarker, sequenceBackup, (ratchetSource m).2, (sequenceSource m).2] ++
    if m.trustPrimaryPrepared then [trustPrimaryBackup] else []

/-- What the manifest `m` reads stands as it did. -/
structure SameJournal (m : TransactionManifest) (fs fs' : FileSystem) : Prop where
  directory : fs'.file activeDirectory = fs.file activeDirectory
  roots : ∀ a ∈ journalRoots m, ∀ p, a <+: p → fs'.lookup p = fs.lookup p
  compacted : ∀ p ∈ m.compactedAppendOnlyFiles,
    fs'.file (compactionBackupDirectory ++ p) = fs.file (compactionBackupDirectory ++ p)

theorem Backups.congr (h : Backups fs m T) (heq : SameJournal m fs fs') : Backups fs' m T := by
  have hx {a : Path} (ha : a ∈ journalRoots m) : fs'.Exists a ↔ fs.Exists a := exists_congr (heq.roots a ha)
  have hf {a : Path} (ha : a ∈ journalRoots m) (r : Path) : fs'.file (a ++ r) = fs.file (a ++ r) :=
    file_congr (heq.roots a ha _ (prefix_append a r))
  have hf' {a : Path} (ha : a ∈ journalRoots m) : fs'.file a = fs.file a :=
    file_congr (heq.roots a ha _ (List.prefix_refl a))
  have hratchet : (ratchetSource m).2 ∈ journalRoots m := by simp [journalRoots]
  have hsequence : (sequenceSource m).2 ∈ journalRoots m := by simp [journalRoots]
  refine ⟨?_, ?_, ?_, ?_, h.version, ?_, ?_, ?_, h.sequenceExisted, ?_, h.appendOnly, h.nested, h.mem_appendOnly, ?_⟩
  · rw [heq.directory]
    exact h.directory
  · exact (hx (by simp [journalRoots])).mpr h.prepared
  · exact fun hc => h.committed ((hx (by simp [journalRoots])).mp hc)
  · exact fun hc => h.rolledBack ((hx (by simp [journalRoots])).mp hc)
  · rw [hf' (by simp [journalRoots])]
    exact h.shadow
  · have := h.ratchet
    unfold TreeBackup at this ⊢
    simp only [hf hratchet, hf' hratchet, hx hratchet]
    exact this
  · rw [hf' hsequence]
    exact h.sequence
  · have := h.trust
    split_ifs at this ⊢ with hm
    · have htrust : trustPrimaryBackup ∈ journalRoots m := by simp [journalRoots, hm]
      simp only [hf htrust, hf' htrust, hx htrust]
      exact this
    · exact this
  · intro p hp
    rw [heq.compacted p hp]
    exact h.compacted p hp

theorem activeDirectory_prefix_root {a : Path} (ha : a ∈ journalRoots m) : activeDirectory <+: a := by
  have hratchet : activeDirectory <+: (ratchetSource m).2 := by
    unfold ratchetSource
    split <;> exact prefix_append _ _
  have hsequence : activeDirectory <+: (sequenceSource m).2 := by
    unfold sequenceSource
    split <;> exact prefix_append _ _
  simp only [journalRoots, List.mem_append, List.mem_cons, List.not_mem_nil, or_false] at ha
  rcases ha with (rfl | rfl | rfl | rfl | rfl | rfl) | ha
  · exact prefix_append _ _
  · exact prefix_append _ _
  · exact prefix_append _ _
  · exact prefix_append _ _
  · exact hratchet
  · exact hsequence
  · split_ifs at ha
    · rw [List.mem_singleton.mp ha]
      exact prefix_append _ _
    · cases ha

theorem SameJournal.of_active
    (heq : ∀ p, activeDirectory <+: p → fs'.lookup p = fs.lookup p) : SameJournal m fs fs' :=
  ⟨file_congr (heq _ (List.prefix_refl _)), fun _ ha p hp => heq p ((activeDirectory_prefix_root ha).trans hp),
    fun p _ => file_congr (heq _ ((prefix_append _ _).trans (prefix_append _ p)))⟩

theorem Journal.of_active (h : Journal fs m T) (heq : ∀ p, activeDirectory <+: p → fs'.lookup p = fs.lookup p) :
    Journal fs' m T :=
  ⟨h.toBackups.congr (.of_active heq), (file_congr (heq _ (prefix_append _ _))).trans h.manifest⟩

theorem Live.of_within {d d' : Disk} (h : Live m T d) (hw : Within S d d') (hS : ∀ p, activeDirectory <+: p → ¬ S p)
    (hkept : Kept d'.files m T) (horderly : Orderly d'.files) : Live m T d' :=
  ⟨h.journal.of_active fun p hp => hw.lookup p (hS p hp), hkept, horderly, h.sound, hw.database.trans h.database⟩

theorem Live.kept_of_within {d d' : Disk} (h : Live m T d) (hw : Within S d d') (hS : ∀ p, AppendOnly p → ¬ S p) : Kept d'.files m T := by
  intro p hp hc
  rw [hw.file (hS p (h.journal.appendOnly p hp).2)]
  exact h.kept p hp hc

end Kilogram.State
