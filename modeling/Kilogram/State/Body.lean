import Kilogram.State.Recovery

/-!
# The body of a transaction

From its beginning on, a transaction keeps in its journal what a rollback goes back to: the contents
at the beginning, or those that a workspace was prepared with.
-/

namespace Kilogram.State
open Crash Crash.Prog FileSystem
open List (prefix_append prefix_refl)

theorem not_prefix_of_apart {a b p : Path} (ha : a <+: p) (hab : ¬ a <+: b) (hba : ¬ b <+: a) : ¬ b <+: p :=
  fun hb => (List.prefix_or_prefix_of_prefix ha hb).elim hab hba

variable {q : Path}

theorem not_prefix_temporary {dir : Path} (name : String) (r : Path)
    (hname : name.toList.take 4 ≠ ['.', 't', 'm', 'p']) (hq : IsTemporary dir q) :
    ¬ dir ++ name :: r <+: q := by
  obtain ⟨t, ht, rfl⟩ := hq
  intro hp
  have hcons := (List.prefix_append_right_inj dir).mp hp
  rw [(List.cons_prefix_cons.mp hcons).1] at hname
  exact hname ht

theorem TreeBackup.congr {fs fs' : FileSystem} {source : Bool × Path} {contents : Path → Option Content}
    (h : TreeBackup fs source contents) (heq : ∀ p, source.2 <+: p → fs'.lookup p = fs.lookup p) :
    TreeBackup fs' source contents := by
  have hf (r : Path) : fs'.file (source.2 ++ r) = fs.file (source.2 ++ r) := file_congr (heq _ (prefix_append _ r))
  unfold TreeBackup at h ⊢
  split_ifs at h ⊢
  · refine ⟨(exists_congr heq).mpr h.1, (file_congr (heq _ (prefix_refl _))).trans h.2.1, ?_⟩
    exact fun r hr => (hf r).trans (h.2.2 r hr)
  · exact h

/-- What a transaction goes back to if no workspace is prepared. -/
def Target.of (d : Disk) : Target where
  database := d.database
  shadow := d.files.file [nextSequenceFile]
  ratchet r := d.files.file (ratchetDirectory :: r)
  sequence := d.files.file [nextSequenceFile]
  trust := none
  appendOnly := d.files.file

/-- An orderly tree in which no transaction is on its way. -/
structure Initial (fs : FileSystem) : Prop where
  orderly : Orderly fs
  names : ∀ p, fs.lookup p ≠ none → ValidRelative p
  tree : ∀ p c, fs.file p = some c → ∀ q, Below p q → fs.lookup q = none
  idle : ¬ fs.Exists activeDirectory

/-- Where the beginning writes before its marker. -/
def StartPlace (q : Path) : Prop := backupDirectory <+: q ∨ q = manifestFile ∨ IsTemporary activeDirectory q

theorem StartPlace.active (h : StartPlace q) : activeDirectory <+: q := by
  rcases h with h | rfl | ⟨t, -, rfl⟩
  · exact (prefix_append _ _).trans h
  · exact prefix_append _ _
  · exact prefix_append _ _

theorem StartPlace.not_marker {name : String}
    (hname : name ∈ ["prepared", "committed", "rolled-back"]) (hq : activeDirectory ++ [name] <+: q) :
    ¬ StartPlace q := by
  have hbackup : ∀ n ∈ ["prepared", "committed", "rolled-back"],
      ¬ activeDirectory ++ [n] <+: backupDirectory ∧ ¬ backupDirectory <+: activeDirectory ++ [n] ∧
      ¬ activeDirectory ++ [n] <+: manifestFile ∧ n.toList.take 4 ≠ ['.', 't', 'm', 'p'] := by
    decide +kernel
  obtain ⟨h₁, h₂, h₃, h₄⟩ := hbackup name hname
  rintro (h | rfl | h)
  · exact not_prefix_of_apart hq h₁ h₂ h
  · exact h₃ hq
  · exact not_prefix_temporary name [] h₄ h hq

section
variable {sys : System} {C : Disk → Prop} {E : StateError → Disk → Prop} {P : FileSystem → Prop}
  {m : TransactionManifest} {T : Target} {d d' : Disk}

theorem Within.lookup_start (h : ¬ d.files.Exists activeDirectory) (hw : Within StartPlace d d')
    {q : Path} (hq : activeDirectory <+: q) (hnot : ¬ StartPlace q) : d'.files.lookup q = none :=
  (hw.lookup q hnot).trans (lookup_eq_none_of_not_exists h hq)

theorem Within.not_exists_marker (h : ¬ d.files.Exists activeDirectory) (hw : Within StartPlace d d')
    {name : String} (hname : name ∈ ["prepared", "committed", "rolled-back"]) :
    ¬ d'.files.Exists (activeDirectory ++ [name]) := by
  rw [FileSystem.exists_iff]
  rintro ⟨q, hq, hne⟩
  exact hne (hw.lookup_start h ((prefix_append _ _).trans hq) (StartPlace.not_marker hname hq))

theorem not_startPlace_active : ¬ StartPlace activeDirectory := by
  rintro (h | h | ⟨t, -, h⟩)
  · exact absurd h (by decide)
  · exact absurd h (by decide)
  · exact absurd (congrArg List.length h) (by simp [activeDirectory])

theorem Settled.of_start (hP : Outside P) (h : P d.files) (hidle : ¬ d.files.Exists activeDirectory)
    (hw : Within StartPlace d d') : Settled P d' := by
  refine ⟨hP _ _ (fun p hp => hw.lookup p fun hs => hp hs.active) h, ?_, fun hprepared => ?_⟩
  · rw [FileSystem.file, hw.lookup_start hidle (prefix_refl _) not_startPlace_active]
    rfl
  · exact absurd hprepared (hw.not_exists_marker hidle (by decide))

/-- The backups and the manifest of a new transaction. -/
structure Snapshot (d d' : Disk) (m : TransactionManifest) : Prop where
  within : Within (backupDirectory <+: ·) d d'
  version : m.version = manifestVersion
  compacted : m.compactedAppendOnlyFiles = []
  ratchetPrimary : m.ratchetPrimaryExisted = none
  sequencePrimary : m.nextSequencePrimaryExisted = none
  trustPrimary : m.trustPrimaryPrepared = false
  ratchet : TreeBackup d'.files (m.ratchetExisted, ratchetBackup) (Target.of d).ratchet
  sequence : d.files.file [nextSequenceFile] = if m.nextSequenceExisted then d'.files.file sequenceBackup else none
  existed : m.nextSequenceExisted → d.files.file [nextSequenceFile] ≠ none
  appendOnly : ∀ p, p ∈ m.appendOnlyFiles ↔ AppendOnly p ∧ d.files.file p ≠ none

variable {Q : Unit → Disk → Prop} {d₀ : Disk} {S : Path → Prop} {m' : TransactionManifest}
  {T' : Target}

theorem wp_prepareRatchetBackup (h : Initial d₀.files) (hw : Within (· = backupDirectory) d₀ d)
    (hC : ∀ d', Within (backupDirectory <+: ·) d₀ d' → C d')
    (hQ : ∀ d', Within (backupDirectory <+: ·) d₀ d' →
      TreeBackup d'.files (decide (d.files.Exists [ratchetDirectory]), ratchetBackup)
        (Target.of d₀).ratchet → Q () d') :
    wp sys (when (decide (d.files.Exists [ratchetDirectory]) = true)
      (copyTree [ratchetDirectory] ratchetBackup)) Q C E d := by
  have hbase : Within (backupDirectory <+: ·) d₀ d := hw.mono fun q hq => hq ▸ prefix_refl _
  have hsource (q : Path) (hq : [ratchetDirectory] <+: q) : ¬ backupDirectory <+: q :=
    not_prefix_of_apart hq (by decide) (by decide)
  have hfile (r : Path) : d.files.file (ratchetDirectory :: r) = d₀.files.file (ratchetDirectory :: r) :=
    hbase.file (hsource _ ⟨r, rfl⟩)
  have hnone (r : Path) : d.files.file (ratchetBackup ++ r) = none := by
    have hactive : activeDirectory <+: ratchetBackup ++ r :=
      (by decide : activeDirectory <+: ratchetBackup).trans (prefix_append _ r)
    rw [FileSystem.file, hw.lookup _ ?_, lookup_eq_none_of_not_exists h.idle hactive]
    · rfl
    · intro heq
      have := congrArg List.length heq
      simp [ratchetBackup, backupDirectory, activeDirectory] at this
  refine wp_when (fun hex => ?_) fun hex => hQ d hbase ?_
  · have hsub (q : Path) (hq : ratchetBackup <+: q) : backupDirectory <+: q := (prefix_append _ _).trans hq
    refine wp_copyTree ?_ (fun q hq hq' => hsource q hq (hsub q hq'))
      (fun d' hd' => hC d' (hbase.trans (hd'.within.mono hsub))) fun d' hd' =>
        hQ d' (hbase.trans (hd'.within.mono hsub)) ?_
    · exact (hfile []).trans (h.orderly.file_eq_none (by decide))
    · unfold TreeBackup
      rw [if_pos hex]
      refine ⟨exists_iff.mpr ⟨_, prefix_refl _, hd'.exists_target (by decide)⟩, ?_, fun r hr => ?_⟩
      · have := hd'.file []
        simp only [List.append_nil, ne_eq, not_true_eq_false, false_and, or_false] at this
        rw [this]
        have := hnone []
        rwa [List.append_nil] at this
      · by_cases hne : d.files.file ([ratchetDirectory] ++ r) = none
        · rcases hd'.file r with heq | ⟨-, hne', -⟩
          · rw [heq, hnone r]
            exact ((hfile r).symm.trans hne).symm
          · exact absurd hne hne'
        · exact (hd'.copied r hr hne).trans (hfile r)
  · unfold TreeBackup
    rw [if_neg hex]
    intro r _
    have hnot : ¬ d.files.Exists [ratchetDirectory] := by simpa using hex
    exact (hfile r).symm.trans (file_eq_none_of_not_exists hnot ⟨r, rfl⟩)

theorem wp_prepareSnapshot {Q : TransactionManifest → Disk → Prop} (h : Initial d₀.files)
    (hw : Within (· = backupDirectory) d₀ d) (hC : ∀ d', Within (backupDirectory <+: ·) d₀ d' → C d')
    (hQ : ∀ m d', Snapshot d₀ d' m → Q m d') : wp sys prepareSnapshot Q C E d := by
  refine wp_bind (wp_pathExists (wp_bind ?_))
  refine wp_prepareRatchetBackup h hw hC fun d₁ hw₁ hratchet => ?_
  refine wp_bind (wp_pathExists (wp_bind ?_))
  have hout {q : Path} (hq : ¬ Zone [transactionDirectory] q) : ¬ backupDirectory <+: q := fun hb =>
    hq (zone_of_active ((prefix_append _ _).trans hb))
  have hnext : d₁.files.file [nextSequenceFile] = d₀.files.file [nextSequenceFile] := hw₁.file (by decide)
  -- the files of the append-only roots and the manifest
  have hrest {d₂ : Disk} {existed : Bool} (hw₂ : Within (backupDirectory <+: ·) d₀ d₂)
      (hratchet₂ : TreeBackup d₂.files (decide (d.files.Exists [ratchetDirectory]), ratchetBackup)
        (Target.of d₀).ratchet)
      (hsequence : d₀.files.file [nextSequenceFile] = if existed then d₂.files.file sequenceBackup else none)
      (hexisted : existed → d₀.files.file [nextSequenceFile] ≠ none) :
      wp sys (do
        let found ← appendOnlyRoots.mapM fun name => collectRelativeFiles [] [name]
        return ⟨manifestVersion, decide (d.files.Exists [ratchetDirectory]), existed, found.flatten, [],
          none, none, false⟩) Q C E d₂ := by
    have hfile {q : Path} (hq : Zone appendOnlyRoots q) : d₂.files.file q = d₀.files.file q :=
      hw₂.file (hout (hq.not_of_disjoint _ (by decide)))
    refine wp_bind (wp_mapM_const (R := fun name paths => Lists d₂.files [] [name] paths)
      (fun name hn K hK => ?_) fun found hfound hall => ?_)
    · refine wp_collectRelativeFiles ?_ (fun p hp hne => ?_) hK
      · rw [hfile ⟨name, hn, rfl⟩]
        exact h.orderly.file_eq_none (List.mem_append_right _ hn)
      · rw [hfile (AppendOnly.zone ⟨name, hn, hp⟩)] at hne
        obtain ⟨c, hc⟩ := Option.ne_none_iff_exists'.mp hne
        exact h.names p (lookup_ne_none_of_file hc)
    · refine wp_pure (hQ _ d₂ ⟨hw₂, rfl, rfl, rfl, rfl, rfl, hratchet₂, hsequence, hexisted, fun p => ?_⟩)
      rw [List.mem_flatten]
      constructor
      · rintro ⟨paths, hmem, hp⟩
        obtain ⟨name, hn, hlists⟩ := hfound paths hmem
        obtain ⟨q, hq, hne, hpq⟩ := (hlists p).mp hp
        have happend : AppendOnly q := ⟨name, hn, hq⟩
        rw [hfile happend.zone] at hne
        rw [hpq]
        exact ⟨happend, hne⟩
      · rintro ⟨⟨name, hn, hp⟩, hne⟩
        obtain ⟨paths, hmem, hlists⟩ := hall name hn
        refine ⟨paths, hmem, (hlists p).mpr ⟨p, hp, ?_, rfl⟩⟩
        rwa [hfile (AppendOnly.zone ⟨name, hn, hp⟩)]
  have hdir : ¬ d₁.files.IsDirectory [nextSequenceFile] := by
    have hexists := hw₁.exists_iff (p := [nextSequenceFile])
      fun q hq => not_prefix_of_apart hq (by decide) (by decide)
    exact fun hdir => h.orderly.not_isDirectory (by decide) ⟨hnext ▸ hdir.1, hexists.mp hdir.2⟩
  refine wp_when (fun hex => ?_) fun hex => hrest hw₁ hratchet ?_ ?_
  · have hne : d₁.files.file [nextSequenceFile] ≠ none := fun hnone =>
      hdir ⟨hnone, of_decide_eq_true hex⟩
    obtain ⟨c, hc⟩ := Option.ne_none_iff_exists'.mp hne
    have hsub (q : Path) (hq : q = sequenceBackup ∨ q = sequenceBackup.dropLast) : backupDirectory <+: q := by
      rcases hq with rfl | rfl <;> decide
    refine wp_copyFile hc (fun d₂ hd₂ => hC d₂ (hw₁.trans (hd₂.within.mono fun q hq => ?_)))
      fun d₂ hd₂ => hrest (hw₁.trans (hd₂.within.mono hsub)) ?_ ?_ ?_
    · exact hsub q (.inr hq)
    · refine hratchet.congr fun p hp => hd₂.within.lookup p ?_
      have hp : ratchetBackup <+: p := hp
      rintro (rfl | rfl)
      · exact absurd hp (by decide)
      · exact absurd hp (by decide)
    · rw [if_pos hex, hd₂.file, ← hc, hnext]
    · exact fun _ => hnext ▸ hne
  · rw [if_neg hex, ← hnext]
    exact file_eq_none_of_not_exists (by simpa using hex) (prefix_refl _)
  · exact fun hyes => absurd hyes hex

theorem Target.sound_of (h : Initial d.files) : (Target.of d).Sound := by
  refine ⟨fun r hr hne => ?_, ?_, by simp [Target.of]⟩
  · obtain ⟨c, hc⟩ := Option.ne_none_iff_exists'.mp hne
    have hvalid := h.names _ (lookup_ne_none_of_file hc)
    exact ⟨hr, fun x hx => hvalid.2 x (.tail _ hx)⟩
  · exact h.orderly.not_hasOrderedFence

theorem Snapshot.live {d₁ d₂ : Disk} (h : Initial d.files) (hs : Snapshot d d₁ m)
    (hw : Within (· = manifestFile) d₁ d₂) (hm : d₂.files.file manifestFile = some (.manifest m)) :
    Live m (.of d) { d₂ with files := d₂.files.insert preparedMarker (.file marker) } := by
  set d₃ : Disk := { d₂ with files := d₂.files.insert preparedMarker (.file marker) } with hd₃
  have hlookup (p : Path) (hp : p ≠ preparedMarker) : d₃.files.lookup p = d₂.files.lookup p := by
    rw [hd₃, lookup_insert_ite, if_neg hp]
  have hstart : Within StartPlace d d₂ := (hs.within.mono fun _ => .inl).trans (hw.mono fun _ hq => .inr (.inl hq))
  have hbackup (p : Path) (hp : backupDirectory <+: p) : d₃.files.lookup p = d₁.files.lookup p := by
    rw [hlookup p, hw.lookup p]
    · rintro rfl
      exact absurd hp (by decide)
    · rintro rfl
      exact absurd hp (by decide)
  have hout (p : Path) (hp : ¬ activeDirectory <+: p) : d₃.files.lookup p = d.files.lookup p := by
    rw [hlookup p, hstart.lookup p fun hs => hp hs.active]
    rintro rfl
    exact hp (by decide)
  have hmarker (name : String) (hn : name ∈ ["committed", "rolled-back"]) :
      ¬ d₃.files.Exists (activeDirectory ++ [name]) := by
    rw [exists_iff]
    rintro ⟨q, hq, hne⟩
    rw [hlookup q] at hne
    · exact hstart.not_exists_marker h.idle (.tail _ hn) (exists_iff.mpr ⟨q, hq, hne⟩)
    · rintro rfl
      revert hq hn
      revert name
      decide
  have hfile {p : Path} (hp : AppendOnly p) : d₃.files.file p = d.files.file p :=
    file_congr (hout p fun ha => hp.zone.not_of_disjoint _ (by decide) (zone_of_active ha))
  refine ⟨⟨⟨?_, ?_, ?_, ?_, hs.version, ?_, ?_, ?_, ?_, ?_, ?_, ?_, ?_, ?_⟩, ?_⟩, ?_, ?_,
    Target.sound_of h, hw.database.trans hs.within.database⟩
  · rw [file_congr (hlookup _ (by decide)), FileSystem.file,
      hstart.lookup_start h.idle (prefix_refl _) not_startPlace_active]
    rfl
  · refine exists_iff.mpr ⟨preparedMarker, prefix_refl _, ?_⟩
    rw [hd₃, lookup_insert_ite, if_pos rfl]
    simp
  · exact hmarker "committed" (by decide)
  · exact hmarker "rolled-back" (by decide)
  · rw [file_congr (hbackup sequenceBackup (prefix_append _ _))]
    exact hs.sequence
  · simp only [ratchetSource, hs.ratchetPrimary]
    exact hs.ratchet.congr fun p hp => hbackup p ((prefix_append _ _).trans hp)
  · simp only [sequenceSource, hs.sequencePrimary]
    rw [file_congr (hbackup sequenceBackup (prefix_append _ _))]
    exact hs.sequence
  · simp only [sequenceSource, hs.sequencePrimary]
    exact hs.existed
  · rw [if_neg (by rw [hs.trustPrimary]; simp)]
    rfl
  · intro p hp
    obtain ⟨happend, hne⟩ := (hs.appendOnly p).mp hp
    exact ⟨h.orderly.valid happend hne, happend⟩
  · intro p hp q hq hbelow
    obtain ⟨c, hc⟩ := Option.ne_none_iff_exists'.mp ((hs.appendOnly p).mp hp).2
    refine ((hs.appendOnly q).mp hq).2 ?_
    rw [FileSystem.file, h.tree p c hc q hbelow]
    rfl
  · intro p hp
    rw [hs.appendOnly p]
    exact and_iff_right hp
  · rw [hs.compacted]
    simp
  · rw [file_congr (hlookup _ (by decide))]
    exact hm
  · exact fun p hp _ => hfile ((hs.appendOnly p).mp hp).1
  · intro p n hn
    by_cases hp : activeDirectory <+: p
    · exact allowed_of_active hp n
    · rw [hout p hp] at hn
      exact h.orderly p n hn

/-- What the transaction knows agrees with its journal: a workspace that was not prepared has left
nothing there. -/
structure Tied (t : StateTransaction) (m : TransactionManifest) (fs : FileSystem) : Prop where
  ratchet : t.ratchetPrimaryBaseline = none → m.ratchetPrimaryExisted = none ∧ ¬ fs.Exists ratchetPrimaryBackup
  sequence : t.sequencePrimaryPrepared = false →
    m.nextSequencePrimaryExisted = none ∧ ¬ fs.Exists sequencePrimaryBackup
  trust : t.trustPrimaryBaseline = none → m.trustPrimaryPrepared = false ∧ ¬ fs.Exists trustPrimaryBackup
  removals : ∀ p ∈ m.compactedAppendOnlyFiles, p ∈ t.appendOnlyRemovals

/-- The transaction `t` is on its way. -/
def Body (t : StateTransaction) (T : Target) (d : Disk) : Prop := ∃ m, Live m T d ∧ Tied t m d.files

theorem wp_begin {Q : StateTransaction → Disk → Prop} (h : Initial d.files)
    (hC : ∀ d', Settled (Matches (.of d)) d' → C d')
    (hQ : ∀ d', Body ⟨none, false, none, [], []⟩ (.of d) d' → Q ⟨none, false, none, [], []⟩ d') :
    wp sys StateTransaction.begin Q C E d := by
  have hmatches : Matches (.of d) d.files := by
    refine ⟨fun _ _ => rfl, rfl, ?_, fun _ _ => rfl⟩
    rintro contents ⟨⟩
  have hcut {d' : Disk} (hw : Within StartPlace d d') : C d' :=
    hC d' (.of_start (outside_matches _) hmatches h.idle hw)
  refine wp_bind (wp_files (wp_bind (wp_failIf ?_ fun _ => wp_bind (wp_failIf ?_ fun _ => wp_bind ?_))))
  · exact fun hfence => absurd hfence h.orderly.not_hasOrderedFence
  · exact fun hactive => absurd hactive h.idle
  refine wp_createDirAll (hcut (.refl _ d)) fun d₁ hd₁ => wp_bind ?_
  refine wp_prepareSnapshot h hd₁.within (fun d' hw => hcut (hw.mono fun _ => .inl)) fun m d₂ hs => ?_
  have hw₂ : Within StartPlace d d₂ := hs.within.mono fun _ => .inl
  refine wp_bind (wp_writeManifest (fun d' hw => hcut (hw₂.trans (hw.mono fun _ hq => .inr (.inr hq))))
    fun d₃ hw hm => ?_)
  have hw₃ : Within StartPlace d d₃ := hw₂.trans (hw.mono fun _ hq => .inr (.inl hq))
  refine wp_bind (wp_writeMarker (hw₃.not_exists_marker h.idle (by decide)) (hcut hw₃) (wp_pure ?_))
  refine hQ _ ⟨m, hs.live h hw hm, ?_⟩
  -- nothing was written below the primary backups
  have hnone (a : Path) (ha : a ∈ [ratchetPrimaryBackup, sequencePrimaryBackup, trustPrimaryBackup]) :
      ¬ FileSystem.Exists (d₃.files.insert preparedMarker (.file marker)) a := by
    have hapart : ∀ a ∈ [ratchetPrimaryBackup, sequencePrimaryBackup, trustPrimaryBackup],
        ¬ a <+: preparedMarker ∧ ¬ a <+: manifestFile ∧ ¬ a <+: backupDirectory ∧
        ¬ backupDirectory <+: a ∧ activeDirectory <+: a := by decide
    obtain ⟨h₁, h₂, h₃, h₄, h₅⟩ := hapart a ha
    rw [exists_iff]
    rintro ⟨q, hq, hne⟩
    have hprepared : q ≠ preparedMarker := fun heq => h₁ (heq ▸ hq)
    rw [lookup_insert_ite, if_neg hprepared, hw.lookup q fun heq => h₂ (heq ▸ hq),
      hs.within.lookup q (not_prefix_of_apart hq h₃ h₄)] at hne
    exact hne (lookup_eq_none_of_not_exists h.idle (h₅.trans hq))
  refine ⟨fun _ => ⟨hs.ratchetPrimary, hnone _ (by decide)⟩,
    fun _ => ⟨hs.sequencePrimary, hnone _ (by decide)⟩, fun _ => ⟨hs.trustPrimary, hnone _ (by decide)⟩, ?_⟩
  rw [hs.compacted]
  simp

theorem mem_journalRoots_cases {a : Path} (ha : a ∈ journalRoots m) :
    a ∈ [preparedMarker, committedMarker, rolledBackMarker, ratchetBackup, sequenceBackup] ∨
      a = ratchetPrimaryBackup ∧ m.ratchetPrimaryExisted ≠ none ∨
      a = sequencePrimaryBackup ∧ m.nextSequencePrimaryExisted ≠ none ∨
      a = trustPrimaryBackup ∧ m.trustPrimaryPrepared = true := by
  simp only [journalRoots, List.mem_append, List.mem_cons, List.not_mem_nil, or_false] at ha
  rcases ha with (rfl | rfl | rfl | rfl | rfl | rfl) | ha
  · exact .inl (by decide)
  · exact .inl (by decide)
  · exact .inl (by decide)
  · exact .inl (by decide)
  · cases hm : m.ratchetPrimaryExisted with
    | none => exact .inl (by simp [ratchetSource, hm])
    | some existed => exact .inr (.inl ⟨by rw [ratchetSource, hm], by simp⟩)
  · cases hm : m.nextSequencePrimaryExisted with
    | none => exact .inl (by simp [sequenceSource, hm])
    | some existed => exact .inr (.inr (.inl ⟨by rw [sequenceSource, hm], by simp⟩))
  · split_ifs at ha with hm
    · exact .inr (.inr (.inr ⟨List.mem_singleton.mp ha, hm⟩))
    · cases ha

theorem mem_of_journalRoots {a : Path} (ha : a ∈ journalRoots m) : a ∈ [preparedMarker, committedMarker,
    rolledBackMarker, ratchetBackup, sequenceBackup, ratchetPrimaryBackup, sequencePrimaryBackup, trustPrimaryBackup] := by
  rcases mem_journalRoots_cases ha with ha | ⟨rfl, -⟩ | ⟨rfl, -⟩ | ⟨rfl, -⟩
  · exact List.mem_append_left [ratchetPrimaryBackup, sequencePrimaryBackup, trustPrimaryBackup] ha
  all_goals decide

theorem journalRoots_name {a : Path} (ha : a ∈ journalRoots m) :
    ∃ name r, name.toList.take 4 ≠ ['.', 't', 'm', 'p'] ∧ a = activeDirectory ++ name :: r := by
  have hconcrete : ∀ a ∈ [preparedMarker, committedMarker, rolledBackMarker, ratchetBackup,
      sequenceBackup, ratchetPrimaryBackup, sequencePrimaryBackup, trustPrimaryBackup],
      (a.drop 2).head?.any (fun name => name.toList.take 4 ≠ ['.', 't', 'm', 'p']) ∧
        a.take 2 = activeDirectory := by decide +kernel
  obtain ⟨hname, htake⟩ := hconcrete a (mem_of_journalRoots ha)
  cases hd : a.drop 2 with
  | nil =>
    rw [hd] at hname
    cases hname
  | cons name r =>
    rw [hd] at hname
    refine ⟨name, r, by simpa using hname, ?_⟩
    rw [← htake, ← hd, List.take_append_drop]

theorem SameJournal.of_within (hw : Within S d d') (hactive : ¬ S activeDirectory)
    (hroots : ∀ a ∈ journalRoots m, ∀ p, a <+: p → ¬ S p)
    (hcompacted : ∀ p, ¬ S (compactionBackupDirectory ++ p)) : SameJournal m d.files d'.files :=
  ⟨hw.file hactive, fun a ha p hp => hw.lookup p (hroots a ha p hp), fun p _ => hw.file (hcompacted p)⟩

theorem SameJournal.of_temporary (hw : Within (IsTemporary activeDirectory) d d') :
    SameJournal m d.files d'.files := by
  refine .of_within hw ?_ (fun a ha p hp hq => ?_) fun p hq => ?_
  · rintro ⟨t, -, h⟩
    exact absurd (congrArg List.length h) (by simp [activeDirectory])
  · obtain ⟨name, r, hname, rfl⟩ := journalRoots_name ha
    exact not_prefix_temporary name r hname hq hp
  · exact not_prefix_temporary "append-only-compaction-backup" p (by decide +kernel) hq
      (by simp [compactionBackupDirectory])

theorem SameJournal.of_manifest (hw : Within (· = manifestFile) d d') : SameJournal m d.files d'.files := by
  have hconcrete : ∀ a ∈ [preparedMarker, committedMarker, rolledBackMarker, ratchetBackup,
      sequenceBackup, ratchetPrimaryBackup, sequencePrimaryBackup, trustPrimaryBackup],
      ¬ a <+: manifestFile := by decide
  refine .of_within hw (by decide) ?_ fun p hq => ?_
  · rintro a ha p hp rfl
    exact hconcrete a (mem_of_journalRoots ha) hp
  · exact (by decide : ¬ compactionBackupDirectory <+: manifestFile) ⟨p, hq⟩

/-- The orderliness and the files outside do not depend on what is in the journal. -/
theorem Live.of_journal (h : Live m T d)
    (hw : Within S d d') (hS : ∀ p, S p → activeDirectory <+: p) (hj : Journal d'.files m' T')
    (hkept : Kept d.files m' T') (hsound : T'.Sound) (hdb : T'.database = T.database) : Live m' T' d' := by
  refine ⟨hj, fun p hp hc => ?_, h.orderly.of_within hw fun p n hp _ => allowed_of_active (hS p hp) n, hsound,
    hw.database.trans (h.database.trans hdb.symm)⟩
  rw [hw.file fun hs => (hj.appendOnly p hp).2.zone.not_of_disjoint _ (by decide) (zone_of_active (hS p hs))]
  exact hkept p hp hc

theorem Live.of_same (h : Live m T d) (hw : Within S d d')
    (hS : ∀ p, S p → activeDirectory <+: p) (hm : ¬ S manifestFile)
    (hsame : SameJournal m d.files d'.files) : Live m T d' :=
  h.of_journal hw hS ⟨h.journal.toBackups.congr hsame, (hw.file hm).trans h.journal.manifest⟩ h.kept h.sound
    rfl

theorem wp_nextManifest (h : Live m T d) (hb : Backups d.files m' T') (hkept : Kept d.files m' T') (hsound : T'.Sound)
    (hdb : T'.database = T.database) (hC : ∀ d', Live m T d' → C d')
    (hQ : ∀ d', Within (· = manifestFile) d d' → Live m' T' d' → Q () d') :
    wp sys (writeManifest m') Q C E d := by
  refine wp_writeManifest (fun d' hw => hC d' (h.of_same hw ?_ ?_ (.of_temporary hw)))
    fun d' hw hm => hQ d' hw (h.of_journal hw ?_ ⟨hb.congr (.of_manifest hw), hm⟩ hkept hsound hdb)
  · rintro p ⟨t, -, rfl⟩
    exact prefix_append _ _
  · exact fun hq => not_prefix_temporary "manifest.json" [] (by decide +kernel) hq (prefix_refl _)
  · rintro p rfl
    exact prefix_append _ _

end
end Kilogram.State
