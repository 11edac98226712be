import Kilogram.State.Body

/-!
# Operations of a transaction

A prepared workspace replaces what the transaction goes back to.
-/

namespace Kilogram.State
open Crash Crash.Prog FileSystem
open List (append_cancel_left prefix_append prefix_refl)
namespace Target

def withRatchet (T : Target) (baseline : Contents) : Target :=
  { T with ratchet := fun r => baseline.lookup (ratchetDirectory :: r) }

def withSequence (T : Target) (content : Option Content) : Target := { T with sequence := content }

def withTrust (T : Target) (contents : Path → Option Content) : Target :=
  { T with trust := some contents }

end Target

/-- Some journal keeps the target. -/
def Pending (T : Target) (d : Disk) : Prop := ∃ m, Live m T d

variable {mismatch : Path → StateError}
variable {baseline : Contents} {p : Path}
variable {c : Content} {contents : Contents}

theorem readBaseline_lookup {kind : StateRecordKind} {l : List VaultPrimaryRecord} {start : Contents}
    (h : readBaseline kind mismatch l start = .ok baseline)
    (hp : baseline.lookup p = some c) : start.lookup p = some c ∨
      ValidRelative p ∧ stateRecordKindForPath p = kind ∧ ∃ r ∈ l, r.relativePath = p ∧ r.content = c := by
  induction l generalizing start with
  | nil =>
    cases h
    exact .inl hp
  | cons r l ih =>
    simp only [readBaseline, Except.ok_iff, not_not] at h
    obtain ⟨_, -, _, hvalid, _, hkind, _, -, h⟩ := h
    rcases ih h with hinsert | ⟨hvalid', hkind', r', hr', heq⟩
    · by_cases hpr : p = r.relativePath
      · rw [hpr, AList.lookup_insert] at hinsert
        exact .inr ⟨hpr ▸ hvalid, hpr ▸ hkind, r, .head _, hpr.symm, Option.some.inj hinsert⟩
      · rw [AList.lookup_insert_ne hpr] at hinsert
        exact .inl hinsert
    · exact .inr ⟨hvalid', hkind', r', List.mem_cons_of_mem _ hr', heq⟩

/-- The records of a read could stand in an orderly directory. -/
def VaultMutableRead.Proper (read : VaultMutableRead) : Prop :=
  ∀ r ∈ read.records, Allowed r.relativePath (.file r.content)

theorem eq_ratchetDirectory_of_kind (h : stateRecordKindForPath p = .ratchet) : ∃ r, p = ratchetDirectory :: r := by
  cases p with
  | nil => cases h
  | cons first r =>
    refine ⟨r, ?_⟩
    simp only [stateRecordKindForPath, classifyFirst] at h
    split_ifs at h with hfirst
    rw [hfirst]

theorem trustPath_of_kind (h : stateRecordKindForPath p = .trust) (hp : Allowed p (.file c)) : TrustPath p := by
  cases p with
  | nil => cases h
  | cons first r =>
    have hfirst : first ∈ trustFiles ∨ first ∈ trustDirectories := by
      simp only [stateRecordKindForPath, classifyFirst] at h
      split_ifs at h with h₁ h₂ h₃ h₄ h₅ h₆ h₇
      exact h₇
    rcases hfirst with hfirst | hfirst
    · refine .inl ⟨first, hfirst, ?_⟩
      by_contra hne
      exact hp.2.1 first (.tail _ hfirst) ⟨⟨r, rfl⟩, hne⟩
    · refine .inr ⟨first, hfirst, ⟨r, rfl⟩, ?_⟩
      exact hp.1 first (List.mem_append_left _ (.tail _ hfirst))

theorem mem_of_lookup (h : contents.lookup p = some c) : p ∈ contents := AList.lookup_isSome.mp (by rw [h]; rfl)

theorem lookup_of_mem (h : p ∈ contents) : ∃ c, contents.lookup p = some c :=
  Option.isSome_iff_exists.mp (AList.lookup_isSome.mpr h)

/-- A baseline of the ratchet: paths below its directory, and no fence. -/
structure RatchetBaseline (baseline : Contents) : Prop where
  path : ∀ p ∈ baseline, ∃ r, r ≠ [] ∧ ValidRelative r ∧ p = ratchetDirectory :: r
  fence : baseline.lookup accountPickle ≠ some orderedAccountFence

theorem ratchetBaseline_of_read {read : VaultMutableRead} (hread : read.Proper)
    (h : readBaseline .ratchet mismatch read.records ∅ = .ok baseline) : RatchetBaseline baseline := by
  refine ⟨fun p hp => ?_, fun hfence => ?_⟩
  · obtain ⟨c, hc⟩ := lookup_of_mem hp
    rcases readBaseline_lookup h hc with hempty | ⟨hvalid, hkind, r, hr, rfl, rfl⟩
    · cases hempty
    · obtain ⟨rest, hrest⟩ := eq_ratchetDirectory_of_kind hkind
      have hne : rest ≠ [] := by
        rintro rfl
        exact (hread r hr).1 ratchetDirectory (by decide) hrest
      refine ⟨rest, hne, ⟨hne, fun x hx => hvalid.2 x ?_⟩, hrest⟩
      rw [hrest]
      exact .tail _ hx
  · rcases readBaseline_lookup h hfence with hempty | ⟨-, -, r, hr, hpath, hcontent⟩
    · cases hempty
    · exact (hread r hr).2.2.2 hpath hcontent

structure TrustBaseline (baseline : Contents) : Prop where
  path : ∀ p ∈ baseline, TrustPath p ∧ ValidRelative p

theorem trustBaseline_of_read {read : VaultMutableRead} (hread : read.Proper)
    (h : readBaseline .trust mismatch read.records ∅ = .ok baseline) : TrustBaseline baseline := by
  refine ⟨fun p hp => ?_⟩
  obtain ⟨c, hc⟩ := lookup_of_mem hp
  rcases readBaseline_lookup h hc with hempty | ⟨hvalid, hkind, r, hr, rfl, -⟩
  · cases hempty
  · exact ⟨trustPath_of_kind hkind (hread r hr), hvalid⟩

section
variable {sys : System} {C : Disk → Prop} {E : StateError → Disk → Prop}
  {m : TransactionManifest} {T : Target} {d d' : Disk} {t : StateTransaction}

variable {dir : Path} {contents : Contents} {f : Path → Path}

/-- Below a primary backup that is not in use nothing is read. -/
theorem SameJournal.of_primary (hw : Within (dir <+: ·) d d')
    (hdir : dir = ratchetPrimaryBackup ∧ m.ratchetPrimaryExisted = none ∨
      dir = trustPrimaryBackup ∧ m.trustPrimaryPrepared = false) :
    SameJournal m d.files d'.files := by
  have hplain : ∀ dir ∈ [ratchetPrimaryBackup, trustPrimaryBackup],
      ¬ dir <+: activeDirectory ∧ ¬ dir <+: compactionBackupDirectory ∧
      ¬ compactionBackupDirectory <+: dir ∧ ∀ a ∈ [preparedMarker, committedMarker, rolledBackMarker,
        ratchetBackup, sequenceBackup, sequencePrimaryBackup], ¬ a <+: dir ∧ ¬ dir <+: a := by decide
  have hmem : dir ∈ [ratchetPrimaryBackup, trustPrimaryBackup] := by
    rcases hdir with ⟨rfl, -⟩ | ⟨rfl, -⟩ <;> decide
  obtain ⟨hactive, hc₁, hc₂, hroots⟩ := hplain dir hmem
  refine .of_within hw hactive (fun a ha p hp => ?_) fun p =>
    not_prefix_of_apart (prefix_append _ p) hc₂ hc₁
  have hapart : ¬ a <+: dir ∧ ¬ dir <+: a := by
    rcases mem_journalRoots_cases ha with ha | ⟨rfl, hm⟩ | ⟨rfl, -⟩ | ⟨rfl, hm⟩
    · exact hroots a (List.mem_append_left [sequencePrimaryBackup] ha)
    · rcases hdir with ⟨-, hdir⟩ | ⟨rfl, -⟩
      · exact absurd hdir hm
      · decide
    · exact hroots _ (by decide)
    · rcases hdir with ⟨rfl, -⟩ | ⟨-, hdir⟩
      · decide
      · rw [hdir] at hm
        cases hm
  exact not_prefix_of_apart hp hapart.1 hapart.2

theorem Live.of_primary (h : Live m T d) (hw : Within (dir <+: ·) d d')
    (hdir : dir = ratchetPrimaryBackup ∧ m.ratchetPrimaryExisted = none ∨
      dir = trustPrimaryBackup ∧ m.trustPrimaryPrepared = false) : Live m T d' := by
  have hmem : ∀ dir ∈ [ratchetPrimaryBackup, trustPrimaryBackup],
      activeDirectory <+: dir ∧ ¬ dir <+: manifestFile := by decide
  obtain ⟨hactive, hmanifest⟩ := hmem dir (by rcases hdir with ⟨rfl, -⟩ | ⟨rfl, -⟩ <;> decide)
  exact h.of_same hw (fun _ => hactive.trans) hmanifest (.of_primary hw hdir)

theorem FilledPart.below (hf : ∀ x ∈ contents, f x ≠ []) (h : FilledPart (fun x => dir ++ f x) contents d d') :
    Within (dir <+: ·) d d' := by
  refine h.within.mono ?_
  rintro q ⟨x, hx, hq⟩
  rw [List.dropLast_append_of_ne_nil (hf x hx)] at hq
  rcases hq with rfl | rfl | ⟨t, -, rfl⟩
  · exact prefix_append _ _
  · exact prefix_append _ _
  · rw [List.append_assoc]
    exact prefix_append _ _

theorem Filled.below_file
    (h : Filled (fun x => dir ++ f x) contents d d') (hnone : ∀ p, dir <+: p → d.files.file p = none)
    {x : Path} (hinj : ∀ y ∈ contents, f y = f x → y = x) :
    d'.files.file (dir ++ f x) = contents.lookup x := by
  cases hl : contents.lookup x with
  | some c => exact h.written x c hl
  | none =>
    rw [h.other _ fun y hy heq => ?_]
    · exact hnone _ (prefix_append _ _)
    · obtain rfl := hinj y hy (append_cancel_left heq).symm
      exact AList.lookup_eq_none.mp hl hy

variable {p : Path} {baseline : Contents} {read : VaultMutableRead}
  {Q : StateTransaction → Disk → Prop}

theorem not_isDirectory_of_not_exists {fs : FileSystem} (h : ¬ fs.Exists p) :
    ¬ fs.IsDirectory p := fun hdir => h hdir.2

theorem Target.sound_withRatchet (h : T.Sound) (hb : RatchetBaseline baseline) : (T.withRatchet baseline).Sound := by
  refine ⟨fun r hr hne => ?_, hb.fence, h.trust⟩
  obtain ⟨c, hc⟩ := Option.ne_none_iff_exists'.mp hne
  obtain ⟨r', -, hvalid, heq⟩ := hb.path _ (mem_of_lookup hc)
  rw [(List.cons.inj heq).2]
  exact hvalid

theorem FilledPart.ratchet_zone (hb : RatchetBaseline baseline)
    (hf : FilledPart id baseline d d') : Within (Zone [ratchetDirectory]) d d' := by
  refine hf.within.mono ?_
  rintro q ⟨x, hx, hq⟩
  obtain ⟨r, hr, -, rfl⟩ := hb.path x hx
  rw [id, List.dropLast_cons_of_ne_nil hr] at hq
  rcases hq with rfl | rfl | ⟨t, -, rfl⟩ <;> exact ⟨_, .head _, rfl⟩

theorem Live.of_ratchet_filled (h : Live m (T.withRatchet baseline) d)
    (hb : RatchetBaseline baseline) (hf : FilledPart id baseline d d') :
    Live m (T.withRatchet baseline) d' := by
  have htemporary {name : String} (hname : name.toList.take 4 ≠ ['.', 't', 'm', 'p']) (dir : Path)
      (x : Path) : ¬ IsTemporary x (dir ++ [name]) := by
    rintro ⟨t, ht, heq⟩
    obtain ⟨-, heq⟩ := List.append_inj' heq rfl
    rw [(List.cons.inj heq).1] at hname
    exact hname ht
  refine h.of_ratchet_zone (hf.ratchet_zone hb) ?_ fun hfence => ?_
  · rcases hf.file [ratchetDirectory] (fun x _ => htemporary (by decide +kernel) [] _) with
      heq | ⟨x, c, hx, heq, -⟩
    · exact heq.trans (h.orderly.file_eq_none (by decide))
    · obtain ⟨r, hr, -, hxr⟩ := hb.path x (mem_of_lookup hx)
      rw [id, hxr] at heq
      exact absurd (List.cons.inj heq).2.symm hr
  · rcases hf.file accountPickle (fun x _ => htemporary (by decide +kernel) [ratchetDirectory] _) with
      heq | ⟨x, c, hx, heq, hc⟩
    · exact h.orderly.not_hasOrderedFence (heq.symm.trans hfence)
    · rw [show x = accountPickle from heq.symm] at hx
      exact hb.fence (hx.trans (hc.symm.trans hfence))

theorem RatchetBaseline.drop_ne_nil (hb : RatchetBaseline baseline) (x : Path) (hx : x ∈ baseline) : x.drop 1 ≠ [] := by
  obtain ⟨r, hr, -, rfl⟩ := hb.path x hx
  exact hr

theorem RatchetBaseline.drop_inj (hb : RatchetBaseline baseline) {x y : Path} (hx : x ∈ baseline)
    (hy : y ∈ baseline) (heq : x.drop 1 = y.drop 1) : x = y := by
  obtain ⟨r, -, -, rfl⟩ := hb.path x hx
  obtain ⟨r', -, -, rfl⟩ := hb.path y hy
  rw [show r = r' from heq]

/-- The files of the baseline, written below the journal, are a backup of the ratchet. -/
theorem RatchetBaseline.treeBackup (hb : RatchetBaseline baseline) (hroot : d.files.file ratchetPrimaryBackup = none)
    (hfile : ∀ r, r ≠ [] → d.files.file (ratchetPrimaryBackup ++ r) = baseline.lookup (ratchetDirectory :: r)) :
    TreeBackup d.files (decide (baseline.entries ≠ []), ratchetPrimaryBackup)
      fun r => baseline.lookup (ratchetDirectory :: r) := by
  unfold TreeBackup
  split_ifs with hentries
  · refine ⟨?_, hroot, hfile⟩
    obtain ⟨x, hx⟩ := List.exists_mem_of_ne_nil _ (of_decide_eq_true hentries)
    have hlookup := mem_of_entries hx
    obtain ⟨r, hr, -, hxr⟩ := hb.path x.1 (mem_of_lookup hlookup)
    have hex := (hfile r hr).trans (hxr ▸ hlookup)
    exact exists_iff.mpr ⟨_, prefix_append _ r, lookup_ne_none_of_file hex⟩
  · intro r hr
    have hempty : baseline.entries = [] := by
      by_contra hne
      exact hentries (decide_eq_true hne)
    refine AList.lookup_eq_none.mpr fun hmem => ?_
    obtain ⟨c, hc⟩ := lookup_of_mem hmem
    have := AList.mem_lookup_iff.mp hc
    rw [hempty] at this
    cases this

/-- A preparation writes its own backup, the manifest and its own files: another path of the journal
stands as it did. -/
theorem Within.exists_apart {X Y : Path → Prop} {a : Path}
    (hw : Within (fun q => X q ∨ q = manifestFile ∨ Y q) d d') (hX : ∀ q, a <+: q → ¬ X q)
    (ha : ¬ a <+: manifestFile) (hY : ∀ q, a <+: q → ¬ Y q) : d'.files.Exists a ↔ d.files.Exists a := by
  refine hw.exists_iff fun q hq => ?_
  rintro (hq' | rfl | hq')
  · exact hX q hq hq'
  · exact ha hq
  · exact hY q hq hq'

theorem wp_prepareRatchetWorkspace (h : Body t T d) (hread : read.Proper)
    (hC : ∀ d', Pending T d' ∨ (∃ baseline, readBaseline .ratchet .ratchetWorkspaceKindMismatch
      read.records ∅ = .ok baseline ∧ Pending (T.withRatchet baseline) d') → C d')
    (hQ : ∀ d' baseline, readBaseline .ratchet .ratchetWorkspaceKindMismatch read.records ∅ =
      .ok baseline → Body { t with ratchetPrimaryBaseline := some baseline } (T.withRatchet baseline) d' →
      Q { t with ratchetPrimaryBaseline := some baseline } d') (hE : ∀ e, E e d) :
    wp sys (t.prepareRatchetWorkspace read) Q C E d := by
  obtain ⟨m, h, htied⟩ := h
  refine wp_bind (wp_failIf (fun _ => hE _) fun hfresh => wp_bind (wp_failIf (fun _ => hE _) fun _ => ?_))
  have hnone : t.ratchetPrimaryBaseline = none := by simpa using hfresh
  obtain ⟨hunused, habsent⟩ := htied.ratchet hnone
  refine wp_bind (wp_lift (fun baseline hbaseline => ?_) fun e _ => hE e)
  have hb := ratchetBaseline_of_read hread hbaseline
  have hcut {d' : Disk} (h' : Live m T d') : C d' := hC d' (.inl ⟨m, h'⟩)
  refine wp_bind (wp_readManifest h.journal (wp_bind ?_))
  -- the new contents go below the journal
  refine wp_removeTreeIfPresent (file_eq_none_of_not_exists habsent (prefix_refl _))
    (fun d₁ hd₁ => hcut (h.of_primary (hd₁.within.mono fun _ hp => hp.1) (.inl ⟨rfl, hunused⟩)))
    fun d₁ hd₁ => wp_bind ?_
  have h₁ : Live m T d₁ := h.of_primary hd₁.within (.inl ⟨rfl, hunused⟩)
  refine wp_writeAll (fun x => ratchetPrimaryBackup ++ x.drop 1) (fun x _ d Q h => h)
    (fun x _ => by simp [ratchetPrimaryBackup])
    (fun x hx y hy heq => hb.drop_inj hx hy (append_cancel_left heq))
    (fun d₂ hd₂ => hcut (h₁.of_primary (hd₂.below hb.drop_ne_nil) (.inl ⟨rfl, hunused⟩)))
    fun d₂ hd₂ => wp_bind ?_
  have hw₂ := hd₂.filledPart.below hb.drop_ne_nil
  have h₂ : Live m T d₂ := h₁.of_primary hw₂ (.inl ⟨rfl, hunused⟩)
  -- the manifest switches over to them
  have hfile (r : Path) (hr : r ≠ []) : d₂.files.file (ratchetPrimaryBackup ++ r) =
      baseline.lookup (ratchetDirectory :: r) :=
    hd₂.below_file (x := ratchetDirectory :: r) (fun _ => hd₁.file) fun y hy heq => by
      obtain ⟨r', -, -, rfl⟩ := hb.path y hy
      rw [show r' = r from heq]
  have hbackups : Backups d₂.files { m with ratchetPrimaryExisted := some (baseline.entries ≠ []) }
      (T.withRatchet baseline) := by
    refine { h₂.journal.toBackups with ratchet := hb.treeBackup ?_ hfile }
    rw [hd₂.other _ fun x hx heq => hb.drop_ne_nil x hx (List.self_eq_append_right.mp heq)]
    exact hd₁.file (prefix_refl _)
  refine wp_nextManifest h₂ hbackups h₂.kept (Target.sound_withRatchet h.sound hb) rfl (fun _ => hcut)
    fun d₃ hw₃ h₃ => wp_bind ?_
  -- and the files follow
  have hcut' {d' : Disk} (h' : Live { m with ratchetPrimaryExisted := some (baseline.entries ≠ []) }
      (T.withRatchet baseline) d') : C d' := hC d' (.inr ⟨baseline, hbaseline, _, h'⟩)
  refine wp_removeTreeIfPresent (h₃.orderly.file_eq_none (by decide)) (fun d₄ hd₄ => hcut' ?_)
    fun d₄ hd₄ => wp_bind ?_
  · exact h₃.of_ratchet (hd₄.within.mono fun p hp => zone_singleton.mpr hp.1) fun r =>
      (hd₄.file_or _).imp_right .inl
  have hw₄ : Within (Zone [ratchetDirectory]) d₃ d₄ := hd₄.within.mono fun p hp => zone_singleton.mpr hp
  have h₄ : Live { m with ratchetPrimaryExisted := some (baseline.entries ≠ []) }
      (T.withRatchet baseline) d₄ := h₃.of_ratchet hw₄ fun r => .inr (.inl (hd₄.file ⟨r, rfl⟩))
  refine wp_writeAll id (fun x _ d Q h => h) (fun x hx => ?_) (fun x _ y _ heq => heq)
    (fun d₅ hd₅ => hcut' (h₄.of_ratchet_filled hb hd₅)) fun d₅ hd₅ => wp_pure ?_
  · obtain ⟨r, -, -, rfl⟩ := hb.path x hx
    simp
  · have h₅ := h₄.of_ratchet_filled hb hd₅.filledPart
    refine hQ d₅ baseline hbaseline ⟨_, h₅, ?_⟩
    have hw₅ : Within (fun q => ratchetPrimaryBackup <+: q ∨ q = manifestFile ∨ Zone [ratchetDirectory] q)
        d d₅ :=
      (((hd₁.within.trans hw₂).mono fun _ => .inl).trans (hw₃.mono fun _ hq => .inr (.inl hq))).trans
        ((hw₄.trans (hd₅.filledPart.ratchet_zone hb)).mono fun _ hq => .inr (.inr hq))
    have habsent' (a : Path) (ha : a ∈ [sequencePrimaryBackup, trustPrimaryBackup]) :
        d₅.files.Exists a ↔ d.files.Exists a := by
      have hapart : ∀ a ∈ [sequencePrimaryBackup, trustPrimaryBackup], ¬ a <+: ratchetPrimaryBackup ∧
          ¬ ratchetPrimaryBackup <+: a ∧ ¬ a <+: manifestFile ∧ activeDirectory <+: a := by decide
      obtain ⟨h₁, h₂, h₃, h₄⟩ := hapart a ha
      exact hw₅.exists_apart (fun q hq => not_prefix_of_apart hq h₁ h₂) h₃ fun q hq hq' =>
        hq'.not_of_disjoint _ (by decide) (zone_of_active (h₄.trans hq))
    refine ⟨fun hnone => absurd hnone (by simp), fun hs => ?_, fun ht => ?_, htied.removals⟩
    · exact ⟨(htied.sequence hs).1, (habsent' _ (by decide)).not.mpr (htied.sequence hs).2⟩
    · exact ⟨(htied.trust ht).1, (habsent' _ (by decide)).not.mpr (htied.trust ht).2⟩

theorem Target.sound_withSequence (h : T.Sound) (content : Option Content) :
    (T.withSequence content).Sound := ⟨h.names, h.fence, h.trust⟩

/-- Where the backup of the sequence is written. -/
def SequenceBackupPlace (q : Path) : Prop :=
  q = sequencePrimaryBackup ∨ q = primaryBackupDirectory ∨ IsTemporary primaryBackupDirectory q

/-- The places of the journal that a backup of the sequence does not touch. -/
def journalApart : List Path :=
  [preparedMarker, committedMarker, rolledBackMarker, manifestFile, ratchetBackup, sequenceBackup,
    compactionBackupDirectory, ratchetPrimaryBackup, trustPrimaryBackup]

theorem SequenceBackupPlace.not_below {a q : Path} (ha : a ∈ journalApart) (hq : a <+: q) :
    ¬ SequenceBackupPlace q := by
  have hapart : ∀ a ∈ journalApart, ¬ a <+: sequencePrimaryBackup ∧ ¬ a <+: primaryBackupDirectory ∧
      (¬ primaryBackupDirectory <+: a ∨ primaryBackupDirectory <+: a ∧
        (a.drop 3).head?.any fun name => name.toList.take 4 ≠ ['.', 't', 'm', 'p']) := by decide +kernel
  obtain ⟨h₁, h₂, h₃⟩ := hapart a ha
  rintro (rfl | rfl | htemporary)
  · exact h₁ hq
  · exact h₂ hq
  · rcases h₃ with h₃ | ⟨⟨r, rfl⟩, hname⟩
    · obtain ⟨t, -, rfl⟩ := htemporary
      exact not_prefix_of_apart hq h₂ h₃ (prefix_append _ _)
    · rw [show (primaryBackupDirectory ++ r).drop 3 = r from rfl] at hname
      cases r with
      | nil => cases hname
      | cons name r => exact not_prefix_temporary name r (by simpa using hname) htemporary hq

theorem Live.of_sequence_backup (h : Live m T d) (hw : Within SequenceBackupPlace d d')
    (hm : m.nextSequencePrimaryExisted = none) : Live m T d' := by
  refine h.of_same hw ?_ (SequenceBackupPlace.not_below (by decide) (prefix_refl _))
    (.of_within hw ?_ (fun a ha p hp => ?_) fun p =>
      SequenceBackupPlace.not_below (by decide) (prefix_append _ p))
  · rintro p (rfl | rfl | ⟨t, -, rfl⟩)
    · decide
    · decide
    · exact (by decide : activeDirectory <+: primaryBackupDirectory).trans (prefix_append _ _)
  · rintro (hq | hq | ⟨t, -, hq⟩)
    · cases hq
    · cases hq
    · exact absurd (congrArg List.length hq) (by simp [activeDirectory, primaryBackupDirectory])
  · refine SequenceBackupPlace.not_below ?_ hp
    rcases mem_journalRoots_cases ha with ha | ⟨rfl, -⟩ | ⟨rfl, hne⟩ | ⟨rfl, -⟩
    · have hsub : ∀ a ∈ [preparedMarker, committedMarker, rolledBackMarker, ratchetBackup, sequenceBackup],
          a ∈ journalApart := by decide
      exact hsub a ha
    · decide
    · exact absurd hm hne
    · decide

theorem wp_writeContent {content : Option Content} {Q : PUnit → Disk → Prop} (hp : p ≠ [])
    (hnone : d.files.lookup p = none) (hC : ∀ d', Touched p d d' → C d')
    (h : ∀ d', Within (fun q => q = p ∨ q = p.dropLast) d d' → d'.files.file p = content →
      d'.files.lookup p ≠ some .directory → Q ⟨⟩ d') :
    wp sys (content.forM fun c => writeStagedFile p c) Q C E d := by
  cases content with
  | none =>
    refine wp_pure (h d (.refl _ d) ?_ (by rw [hnone]; simp))
    rw [FileSystem.file, hnone]
    rfl
  | some c =>
    refine wp_writeStagedFile hp hC fun d' hd' => h d' hd'.within hd'.file ?_
    rw [file_eq_some.mp hd'.file]
    simp

theorem wp_prepareSequenceWorkspace (h : Body t T d)
    (hC : ∀ d', Pending T d' ∨ (∃ content, StateTransaction.sequenceContent read.records = .ok content ∧
      Pending (T.withSequence content) d') → C d')
    (hQ : ∀ d' content, StateTransaction.sequenceContent read.records = .ok content →
      Body { t with sequencePrimaryPrepared := true } (T.withSequence content) d' →
      Q { t with sequencePrimaryPrepared := true } d') (hE : ∀ e, E e d) :
    wp sys (t.prepareSequenceWorkspace read) Q C E d := by
  obtain ⟨m, h, htied⟩ := h
  refine wp_bind (wp_failIf (fun _ => hE _) fun hfresh => wp_bind (wp_failIf (fun _ => hE _) fun _ => ?_))
  obtain ⟨hunused, habsent⟩ := htied.sequence (by simpa using hfresh)
  refine wp_bind (wp_lift (fun content hcontent => ?_) fun e _ => hE e)
  have hcut {d' : Disk} (h' : Live m T d') : C d' := hC d' (.inl ⟨m, h'⟩)
  refine wp_bind (wp_readManifest h.journal (wp_bind ?_))
  refine wp_removeFileIfPresent (not_isDirectory_of_not_exists habsent) (hcut h) fun d₁ hd₁ hnone₁ => wp_bind ?_
  have hw₁ : Within SequenceBackupPlace d d₁ := hd₁.mono fun _ => .inl
  have h₁ : Live m T d₁ := h.of_sequence_backup hw₁ hunused
  have hparent : sequencePrimaryBackup.dropLast = primaryBackupDirectory := rfl
  refine wp_writeContent (by decide) hnone₁ (fun d₂ hd₂ => hcut (h₁.of_sequence_backup ?_ hunused))
    fun d₂ hw hfile _ => wp_bind ?_
  · exact hd₂.within.mono fun q hq => .inr (hparent ▸ hq)
  have hw₂ : Within SequenceBackupPlace d₁ d₂ := hw.mono fun q hq => hq.imp_right .inl
  have h₂ : Live m T d₂ := h₁.of_sequence_backup hw₂ hunused
  have hbackups : Backups d₂.files { m with nextSequencePrimaryExisted := some content.isSome }
      (T.withSequence content) := by
    refine { h₂.journal.toBackups with sequence := ?_, sequenceExisted := ?_ }
    · show content = if content.isSome then d₂.files.file sequencePrimaryBackup else none
      rw [hfile]
      cases content <;> rfl
    · exact fun hsome => Option.isSome_iff_ne_none.mp hsome
  refine wp_nextManifest h₂ hbackups h₂.kept (Target.sound_withSequence h.sound content) rfl
    (fun _ => hcut) fun d₃ hw₃ h₃ => wp_bind ?_
  have hcut' {d' : Disk} (h' : Live { m with nextSequencePrimaryExisted := some content.isSome }
      (T.withSequence content) d') : C d' := hC d' (.inr ⟨content, hcontent, _, h'⟩)
  refine wp_removeFileIfPresent (h₃.orderly.not_isDirectory (by decide)) (hcut' h₃) fun d₄ hd₄ hnone₄ => wp_bind ?_
  have hw₄ : Within SequencePlace d₃ d₄ := hd₄.mono fun _ => .inl
  have h₄ := h₃.of_sequence hw₄ (by rw [hnone₄]; simp)
  refine wp_writeContent (by decide) hnone₄ (fun d₅ hd₅ => hcut' (h₄.of_sequence ?_ ?_))
    fun d₅ hw hfile₅ hdir => wp_pure ?_
  · exact hd₅.within.mono fun q hq => .inr hq
  · rw [hd₅.within.lookup _ ?_, hnone₄]
    · simp
    · rintro (hq | hq)
      · cases hq
      · exact not_isTemporary_name (by decide) hq
  · have hw₅ : Within SequencePlace d₄ d₅ := hw.mono fun q hq => hq.imp_right .inl
    refine hQ d₅ content hcontent ⟨_, h₄.of_sequence hw₅ hdir, ?_⟩
    have hall : Within (fun q => SequenceBackupPlace q ∨ q = manifestFile ∨ SequencePlace q) d d₅ :=
      (((hw₁.trans hw₂).mono fun _ => .inl).trans (hw₃.mono fun _ hq => .inr (.inl hq))).trans
        ((hw₄.trans hw₅).mono fun _ hq => .inr (.inr hq))
    have habsent' (a : Path) (ha : a ∈ [ratchetPrimaryBackup, trustPrimaryBackup]) :
        d₅.files.Exists a ↔ d.files.Exists a := by
      have hapart : ∀ a ∈ [ratchetPrimaryBackup, trustPrimaryBackup], ¬ a <+: manifestFile ∧
          ¬ a.length ≤ 1 ∧ a ∈ journalApart := by decide
      obtain ⟨h₁, h₂, h₃⟩ := hapart a ha
      exact hall.exists_apart (fun q => SequenceBackupPlace.not_below h₃) h₁ fun q hq hq' =>
        h₂ (hq.length_le.trans hq'.length_le)
    refine ⟨fun hr => ?_, fun hs => absurd hs (by simp), fun ht => ?_, htied.removals⟩
    · exact ⟨(htied.ratchet hr).1, (habsent' _ (by decide)).not.mpr (htied.ratchet hr).2⟩
    · exact ⟨(htied.trust ht).1, (habsent' _ (by decide)).not.mpr (htied.trust ht).2⟩

theorem Target.sound_withTrust (h : T.Sound) (hb : TrustBaseline baseline) : (T.withTrust baseline.lookup).Sound := by
  refine ⟨h.names, h.fence, fun contents heq p hne => ?_⟩
  cases heq
  obtain ⟨c, hc⟩ := Option.ne_none_iff_exists'.mp hne
  exact hb.path p (mem_of_lookup hc)

theorem wp_prepareTrustWorkspaceFromBaseline
    (h : Body t T d) (hfresh : t.trustPrimaryBaseline = none) (hb : TrustBaseline baseline)
    (hC : ∀ d', Pending T d' ∨ Pending (T.withTrust baseline.lookup) d' → C d')
    (hQ : ∀ d', Body { t with trustPrimaryBaseline := some baseline } (T.withTrust baseline.lookup) d' →
      Q { t with trustPrimaryBaseline := some baseline } d') :
    wp sys (t.prepareTrustWorkspaceFromBaseline baseline) Q C E d := by
  obtain ⟨m, h, htied⟩ := h
  obtain ⟨hunused, habsent⟩ := htied.trust hfresh
  have hcut {d' : Disk} (h' : Live m T d') : C d' := hC d' (.inl ⟨m, h'⟩)
  have hkeys (x : Path) (hx : x ∈ baseline) : TrustPath x := (hb.path x hx).1
  refine wp_bind (wp_removeTreeIfPresent (file_eq_none_of_not_exists habsent (prefix_refl _))
    (fun d₁ hd₁ => hcut (h.of_primary (hd₁.within.mono fun _ hp => hp.1) (.inr ⟨rfl, hunused⟩)))
    fun d₁ hd₁ => wp_bind ?_)
  have h₁ : Live m T d₁ := h.of_primary hd₁.within (.inr ⟨rfl, hunused⟩)
  refine wp_createDirAll (hcut h₁) fun d₂ hd₂ => wp_bind ?_
  have hw₂ : Within (trustPrimaryBackup <+: ·) d₁ d₂ := hd₂.within.mono fun q hq => hq ▸ prefix_refl _
  have h₂ : Live m T d₂ := h₁.of_primary hw₂ (.inr ⟨rfl, hunused⟩)
  have hne (x : Path) (hx : x ∈ baseline) : x ≠ [] := (hkeys x hx).ne_nil
  refine wp_writeAll (fun x => trustPrimaryBackup ++ x) (fun x _ d Q h => h)
    (fun x _ => by simp [trustPrimaryBackup]) (fun x _ y _ heq => append_cancel_left heq)
    (fun d₃ hd₃ => hcut (h₂.of_primary (hd₃.below hne) (.inr ⟨rfl, hunused⟩))) fun d₃ hd₃ => wp_bind ?_
  have hw₃ : Within (trustPrimaryBackup <+: ·) d₂ d₃ := hd₃.filledPart.below hne
  have h₃ : Live m T d₃ := h₂.of_primary hw₃ (.inr ⟨rfl, hunused⟩)
  refine wp_readManifest h₃.journal (wp_bind ?_)
  have hnone (p : Path) (hp : trustPrimaryBackup <+: p) : d₂.files.file p = none := by
    rw [hd₂.file_eq]
    exact hd₁.file hp
  have hbackups : Backups d₃.files { m with trustPrimaryPrepared := true } (T.withTrust baseline.lookup) := by
    refine { h₃.journal.toBackups with trust := ?_ }
    rw [if_pos rfl]
    refine ⟨_, rfl, exists_iff.mpr ⟨_, prefix_refl _, hd₃.keeps _ (by decide)
      (hd₂.lookup (by decide))⟩, ?_, fun p _ => ?_⟩
    · rw [hd₃.other _ fun x hx heq => hne x hx (List.self_eq_append_right.mp heq)]
      exact hnone _ (prefix_refl _)
    · exact hd₃.below_file (f := id) hnone fun y _ heq => heq
  refine wp_nextManifest h₃ hbackups h₃.kept (Target.sound_withTrust h.sound hb) rfl (fun _ => hcut)
    fun d₄ hw₄ h₄ => wp_bind ?_
  have hcut' {d' : Disk} (h' : Live { m with trustPrimaryPrepared := true }
      (T.withTrust baseline.lookup) d') : C d' := hC d' (.inr ⟨_, h'⟩)
  refine wp_clearTrustContents h₄.orderly (fun d₅ hd₅ => hcut' (h₄.of_lost hd₅ (by decide)))
    fun d₅ hd₅ _ => wp_bind ?_
  have h₅ := h₄.of_lost hd₅ (by decide)
  refine wp_writeAll id (fun x _ d Q h => h) hne (fun x _ y _ heq => heq)
    (fun d₆ hd₆ => hcut' (h₅.of_filled hkeys hd₆)) fun d₆ hd₆ => wp_pure ?_
  refine hQ d₆ ⟨_, h₅.of_filled hkeys hd₆.filledPart, ?_⟩
  have hall : Within (fun q => trustPrimaryBackup <+: q ∨ q = manifestFile ∨ TrustPlace q) d d₆ := by
    refine ((((hd₁.within.trans hw₂).trans hw₃).mono fun _ => .inl).trans (hw₄.mono fun _ hq => .inr (.inl hq))).trans
        (((hd₅.within.mono fun _ hq => .inr (.inl hq)).trans (hd₆.within.mono ?_)).mono
          fun _ hq => .inr (.inr hq))
    rintro q ⟨x, hx, hq⟩
    exact (hkeys x hx).place (hq.imp_right .inl)
  have habsent' (a : Path) (ha : a ∈ [ratchetPrimaryBackup, sequencePrimaryBackup]) :
      d₆.files.Exists a ↔ d.files.Exists a := by
    have hapart : ∀ a ∈ [ratchetPrimaryBackup, sequencePrimaryBackup], ¬ a <+: trustPrimaryBackup ∧
        ¬ trustPrimaryBackup <+: a ∧ ¬ a <+: manifestFile ∧ activeDirectory <+: a := by decide
    obtain ⟨h₁, h₂, h₃, h₄⟩ := hapart a ha
    exact hall.exists_apart (fun q hq => not_prefix_of_apart hq h₁ h₂) h₃ fun q hq hq' =>
      hq'.not_active (h₄.trans hq)
  refine ⟨fun hr => ?_, fun hs => ?_, fun ht => absurd ht (by simp), htied.removals⟩
  · exact ⟨(htied.ratchet hr).1, (habsent' _ (by decide)).not.mpr (htied.ratchet hr).2⟩
  · exact ⟨(htied.sequence hs).1, (habsent' _ (by decide)).not.mpr (htied.sequence hs).2⟩

theorem wp_prepareTrustWorkspace (h : Body t T d) (hread : read.Proper)
    (hC : ∀ d', Pending T d' ∨ (∃ baseline, readBaseline .trust .trustWorkspaceKindMismatch
      read.records ∅ = .ok baseline ∧ Pending (T.withTrust baseline.lookup) d') → C d')
    (hQ : ∀ d' baseline, readBaseline .trust .trustWorkspaceKindMismatch read.records ∅ =
      .ok baseline → Body { t with trustPrimaryBaseline := some baseline } (T.withTrust baseline.lookup) d' →
      Q { t with trustPrimaryBaseline := some baseline } d') (hE : ∀ e, E e d) :
    wp sys (t.prepareTrustWorkspace read) Q C E d := by
  refine wp_bind (wp_failIf (fun _ => hE _) fun hfresh => wp_bind (wp_failIf (fun _ => hE _) fun _ => ?_))
  refine wp_bind (wp_lift (fun baseline hbaseline => ?_) fun e _ => hE e)
  refine wp_prepareTrustWorkspaceFromBaseline h (by simpa using hfresh)
    (trustBaseline_of_read hread hbaseline) (fun d' h' => hC d' (h'.imp_right fun h' => ?_))
    fun d' h' => hQ d' baseline hbaseline h'
  exact ⟨baseline, hbaseline, h'⟩

/-- The trust files as they stand. -/
def trustContents (fs : FileSystem) (p : Path) : Option Content := if TrustPath p then fs.file p else none

theorem wp_readOptionalFile {Q : Option Content → Disk → Prop} (hE : ∀ e, E e d)
    (h : Q (d.files.file p) d) : wp sys (readOptionalFile p) Q C E d :=
  wp_bind (wp_files (wp_bind (wp_failIf (fun _ => hE _) fun _ => wp_pure h)))

theorem wp_collectTrustContents {Q : Contents → Disk → Prop} (hE : ∀ e, E e d)
    (h : ∀ contents : Contents, (∀ p, contents.lookup p = trustContents d.files p) →
      TrustBaseline contents → Q contents d) : wp sys collectTrustContents Q C E d := by
  refine wp_bind (wp_mapM_const (R := fun name x => x = (name, d.files.file [name]))
    (fun name _ K hK => wp_bind (wp_readOptionalFile hE (wp_pure (hK _ rfl)))) fun found hfound hall => ?_)
  refine wp_bind (wp_mapM_const (R := fun name tree => Reads d.files [] [name] tree ∧
    ∀ p, Below [name] p → d.files.file p ≠ none → ValidRelative p)
    (fun name _ K hK => wp_collectTreeContents_or List.nil_prefix
      (fun contents _ hread hvalid => hK contents ⟨hread, hvalid⟩) hE) fun trees htrees hall' => wp_pure ?_)
  have hfold : (trees.foldl (fun records tree => tree.entries.foldl (fun r x => r.insert x.1 x.2) records)
      (found.foldl (fun (records : Contents) x => x.2.elim records fun c => records.insert [x.1] c) ∅)) =
      (found.filterMap (fun x => x.2.map fun c => (⟨[x.1], c⟩ : Sigma fun _ : Path => Content)) ++
        trees.flatMap AList.entries).foldl (fun (r : Contents) x => r.insert x.1 x.2) ∅ := by
    rw [List.foldl_append, List.foldl_flatMap, List.foldl_filterMap]
    congr 1
    congr 1
    funext records x
    cases x.2 <;> rfl
  have hlookup (p : Path) := lookup_collected (f := trustContents d.files)
    (l := found.filterMap (fun x => x.2.map fun c => (⟨[x.1], c⟩ : Sigma fun _ : Path => Content)) ++
        trees.flatMap AList.entries) (fun q c => ?_) p
  · rw [hfold]
    refine h _ hlookup ⟨fun p hp => ?_⟩
    obtain ⟨c, hc⟩ := lookup_of_mem hp
    rw [hlookup, trustContents] at hc
    split_ifs at hc with htrust
    refine ⟨htrust, ?_⟩
    rcases htrust with ⟨name, hn, rfl⟩ | ⟨name, hn, hp⟩
    · have hnames : ∀ name ∈ trustFiles, ValidRelative [name] := by decide
      exact hnames name hn
    · obtain ⟨tree, -, -, hvalid⟩ := hall' name hn
      exact hvalid p hp (by rw [hc]; simp)
  · simp only [List.mem_append, List.mem_filterMap, List.mem_flatMap, Option.map_eq_some_iff]
    unfold trustContents
    constructor
    · rintro (⟨x, hx, c', hc', heq⟩ | ⟨tree, htree, hmem⟩)
      · obtain ⟨name, hn, rfl⟩ := hfound x hx
        cases heq
        have htrust : TrustPath [name] := .inl ⟨name, hn, rfl⟩
        exact (if_pos htrust).trans hc'
      · obtain ⟨name, hn, hread, -⟩ := htrees tree htree
        have hl := hread q
        rw [mem_of_entries hmem, List.nil_append] at hl
        split_ifs at hl with hq
        have htrust : TrustPath q := .inr ⟨name, hn, hq⟩
        rw [if_pos htrust, ← hl]
    · intro hc
      split_ifs at hc with htrust
      rcases htrust with ⟨name, hn, rfl⟩ | ⟨name, hn, hq⟩
      · obtain ⟨x, hx, rfl⟩ := hall name hn
        exact .inl ⟨_, hx, c, hc, rfl⟩
      · obtain ⟨tree, htree, hread, -⟩ := hall' name hn
        refine .inr ⟨tree, htree, AList.mem_lookup_iff.mp ?_⟩
        rw [hread q, List.nil_append, if_pos hq]
        exact hc

theorem wp_prepareLegacyTrustWorkspace (h : Body t T d)
    (hC : ∀ d', Pending T d' ∨ Pending (T.withTrust (trustContents d.files)) d' → C d')
    (hQ : ∀ d' baseline, (∀ p, baseline.lookup p = trustContents d.files p) →
      Body { t with trustPrimaryBaseline := some baseline } (T.withTrust (trustContents d.files)) d' →
      Q { t with trustPrimaryBaseline := some baseline } d') (hE : ∀ e, E e d) :
    wp sys t.prepareLegacyTrustWorkspace Q C E d := by
  refine wp_bind (wp_failIf (fun _ => hE _) fun hfresh => wp_bind (wp_collectTrustContents hE ?_))
  intro baseline hlookup hb
  have heq : (fun p => baseline.lookup p) = trustContents d.files := funext hlookup
  refine wp_prepareTrustWorkspaceFromBaseline h (by simpa using hfresh) hb (fun d' h' => hC d' ?_)
    fun d' h' => hQ d' baseline hlookup ?_
  · rw [← heq]
    exact h'
  · rw [← heq]
    exact h'

theorem wp_registerAppendOnlyWrite (h : Body t T d)
    (hQ : Body { t with appendOnlyWrites := t.appendOnlyWrites.insert p } T d →
      Q { t with appendOnlyWrites := t.appendOnlyWrites.insert p } d) (hE : ∀ e, E e d) :
    wp sys (t.registerAppendOnlyWrite p) Q C E d := by
  obtain ⟨m, h, htied⟩ := h
  refine wp_bind (wp_failIf (fun _ => hE _) fun _ => wp_bind (wp_failIf (fun _ => hE _) fun _ => ?_))
  refine wp_bind (wp_failIf (fun _ => hE _) fun _ => wp_pure (hQ ⟨m, h, ?_⟩))
  exact ⟨htied.ratchet, htied.sequence, htied.trust, htied.removals⟩

theorem Live.of_compaction (h : Live m T d) (hp : p ≠ []) (hw : Within (fun q => q = compactionBackupDirectory ++ p ∨
      q = (compactionBackupDirectory ++ p).dropLast) d d')
    (hfile : ∀ q ∈ m.compactedAppendOnlyFiles, d'.files.file (compactionBackupDirectory ++ q) =
      d.files.file (compactionBackupDirectory ++ q)) : Live m T d' := by
  have hconcrete : ∀ a ∈ [preparedMarker, committedMarker, rolledBackMarker, ratchetBackup, sequenceBackup,
      ratchetPrimaryBackup, sequencePrimaryBackup, trustPrimaryBackup], ¬ a <+: compactionBackupDirectory ∧ ¬ compactionBackupDirectory <+: a := by decide
  have hbelow (q : Path) (hq : q = compactionBackupDirectory ++ p ∨
      q = (compactionBackupDirectory ++ p).dropLast) : compactionBackupDirectory <+: q := by
    rw [List.dropLast_append_of_ne_nil hp] at hq
    rcases hq with rfl | rfl <;> exact prefix_append _ _
  have hw' : Within (compactionBackupDirectory <+: ·) d d' := hw.mono hbelow
  refine h.of_same hw' (fun q hq => (prefix_append _ _).trans hq) (by decide) ⟨?_, ?_, hfile⟩
  · exact hw'.file (by decide)
  · intro a ha q hq
    refine hw'.lookup q ?_
    obtain ⟨h₁, h₂⟩ := hconcrete a (mem_of_journalRoots ha)
    exact not_prefix_of_apart hq h₁ h₂

theorem wp_compactRuntimeRecord (h : Body t T d) (hC : ∀ d', Pending T d' → C d') (hsame : Q t d)
    (hQ : ∀ d', Body { t with appendOnlyRemovals := t.appendOnlyRemovals.insert p } T d' →
      Q { t with appendOnlyRemovals := t.appendOnlyRemovals.insert p } d') (hE : ∀ e, E e d) :
    wp sys (t.compactRuntimeRecord p) Q C E d := by
  obtain ⟨m, h, htied⟩ := h
  refine wp_bind (wp_failIf (fun _ => hE _) fun hvalid => wp_bind (wp_failIf (fun _ => hE _) fun hkind => ?_))
  refine wp_bind (wp_readManifest h.journal (wp_bind (wp_failIf (fun _ => hE _) fun hmem => ?_)))
  have hmem := not_not.mp hmem
  obtain ⟨hvalid, happend⟩ := h.journal.appendOnly p hmem
  by_cases hremoved : p ∈ t.appendOnlyRemovals
  · rw [if_pos hremoved]
    exact wp_pure hsame
  rw [if_neg hremoved]
  have hnew : p ∉ m.compactedAppendOnlyFiles := fun hp => hremoved (htied.removals p hp)
  refine wp_bind (wp_files (wp_bind (wp_failIf (fun _ => hE _) fun _ =>
    wp_bind (wp_failIf (fun _ => hE _) fun hfile => wp_bind ?_))))
  obtain ⟨c, hc⟩ := Option.ne_none_iff_exists'.mp hfile
  have hcut {m' : TransactionManifest} {d' : Disk} (h' : Live m' T d') : C d' := hC d' ⟨m', h'⟩
  refine wp_copyFile hc (fun d₁ hd₁ => hcut (h.of_compaction hvalid.1 (hd₁.within.mono fun _ => .inr)
    fun q _ => hd₁.file _)) fun d₁ hd₁ => wp_bind ?_
  have h₁ : Live m T d₁ := h.of_compaction hvalid.1 hd₁.within fun q hq =>
    hd₁.other _ fun heq => hnew (append_cancel_left heq ▸ hq)
  have hw₁ : Within (compactionBackupDirectory <+: ·) d d₁ := by
    refine hd₁.within.mono fun q hq => ?_
    rw [List.dropLast_append_of_ne_nil hvalid.1] at hq
    rcases hq with rfl | rfl <;> exact prefix_append _ _
  have hfile₁ : d₁.files.file p = some c := by
    rw [hw₁.file fun hq => ?_, hc]
    exact happend.zone.not_of_disjoint _ (by decide) (zone_of_active ((prefix_append _ _).trans hq))
  have hbackups : Backups d₁.files { m with compactedAppendOnlyFiles := m.compactedAppendOnlyFiles.insert p } T := by
    refine { h₁.journal.toBackups with compacted := fun q hq => ?_ }
    rcases List.mem_insert_iff.mp hq with rfl | hq
    · refine ⟨not_not.mp hkind, hmem, ?_⟩
      rw [hd₁.file, ← hc]
      exact h.kept q hmem hnew
    · exact h₁.journal.compacted q hq
  have hkept : Kept d₁.files { m with compactedAppendOnlyFiles := m.compactedAppendOnlyFiles.insert p } T :=
    fun q hq hnot => h₁.kept q hq fun hq' => hnot (List.mem_insert_of_mem hq')
  refine wp_nextManifest h₁ hbackups hkept h.sound rfl (fun _ => hcut) fun d₂ hw₂ h₂ => wp_bind ?_
  have hfile₂ : d₂.files.file p = some c := by
    rw [hw₂.file fun hq => ?_, hfile₁]
    exact happend.zone.not_of_disjoint _ (by decide) (zone_of_active (hq ▸ prefix_append _ _))
  refine wp_removeFileIfPresent (fun hdir => ?_) (hcut h₂) fun d₃ hd₃ _ => wp_pure (hQ d₃ ?_)
  · rw [hdir.1] at hfile₂
    cases hfile₂
  · refine ⟨_, h₂.of_compacted List.mem_insert_self (hd₃.mono fun _ => .inl) fun q hq => hd₃.file hq, ?_⟩
    have hall : Within (fun q => compactionBackupDirectory <+: q ∨ q = manifestFile ∨ q = p) d d₃ :=
      ((hw₁.mono fun _ => .inl).trans (hw₂.mono fun _ hq => .inr (.inl hq))).trans
        (hd₃.mono fun _ hq => .inr (.inr hq))
    have habsent (a : Path) (ha : a ∈ [ratchetPrimaryBackup, sequencePrimaryBackup, trustPrimaryBackup]) :
        d₃.files.Exists a ↔ d.files.Exists a := by
      have hapart : ∀ a ∈ [ratchetPrimaryBackup, sequencePrimaryBackup, trustPrimaryBackup],
          ¬ a <+: compactionBackupDirectory ∧ ¬ compactionBackupDirectory <+: a ∧
          ¬ a <+: manifestFile ∧ activeDirectory <+: a := by decide
      obtain ⟨h₁, h₂, h₃, h₄⟩ := hapart a ha
      refine hall.exists_iff fun q hq => ?_
      rintro (hq' | rfl | rfl)
      · exact not_prefix_of_apart hq h₁ h₂ hq'
      · exact h₃ hq
      · exact happend.zone.not_of_disjoint _ (by decide) (zone_of_active (h₄.trans hq))
    refine ⟨fun hr => ?_, fun hs => ?_, fun ht => ?_, fun q hq => ?_⟩
    · exact ⟨(htied.ratchet hr).1, (habsent _ (by decide)).not.mpr (htied.ratchet hr).2⟩
    · exact ⟨(htied.sequence hs).1, (habsent _ (by decide)).not.mpr (htied.sequence hs).2⟩
    · exact ⟨(htied.trust ht).1, (habsent _ (by decide)).not.mpr (htied.trust ht).2⟩
    · rcases List.mem_insert_iff.mp hq with rfl | hq
      · exact List.mem_insert_self
      · exact List.mem_insert_of_mem (htied.removals q hq)

/-- One change of the managed files: an entry is made or removed. -/
def edit (p : Path) : Option Node → M Unit
  | some n => change (·.insert p n)
  | none => change (·.erase p)

/-- The edits that a body makes: in the ratchet, the sequence and the trust files, and of new
append-only files; temporary files included. -/
structure Editable (T : Target) (p : Path) (n : Option Node) : Prop where
  place : Zone (ratchetDirectory :: nextSequenceFile :: trustNames ++ appendOnlyRoots) p ∨ IsTemporary [] p
  new : AppendOnly p → T.appendOnly p = none
  allowed : ∀ x, n = some x → Allowed p x

theorem wp_edit {n : Option Node} {Q : Unit → Disk → Prop} (h : Body t T d)
    (hedit : Editable T p n) (hC : ∀ d', Pending T d' → C d') (hQ : ∀ d', Body t T d' → Q () d') :
    wp sys (edit p n) Q C E d := by
  obtain ⟨m, h, htied⟩ := h
  have hactive : ¬ activeDirectory <+: p := by
    intro hp
    rcases hedit.place with hz | ⟨t, -, rfl⟩
    · exact hz.not_of_disjoint _ (by decide) (zone_of_active hp)
    · exact absurd hp.length_le (by simp [activeDirectory])
  have hbody {d' : Disk} (hw : Within (· = p) d d') (hn : d'.files.lookup p = n) : Body t T d' := by
    refine ⟨m, h.of_within hw (fun q hq heq => hactive (heq ▸ hq)) (fun q hq hc => ?_)
      (h.orderly.of_within hw ?_), ?_⟩
    · rw [hw.file fun heq => ?_]
      · exact h.kept q hq hc
      · obtain ⟨-, happend⟩ := h.journal.appendOnly q hq
        exact (h.journal.mem_appendOnly q happend).mp hq (heq ▸ hedit.new (heq ▸ happend))
    · rintro q x rfl hx
      exact hedit.allowed x (hn.symm.trans hx)
    · have hexists {a : Path} (ha : activeDirectory <+: a) : d'.files.Exists a ↔ d.files.Exists a :=
        hw.exists_iff fun q hq heq => hactive (ha.trans (heq ▸ hq))
      refine ⟨fun hr => ?_, fun hs => ?_, fun ht => ?_, htied.removals⟩
      · exact ⟨(htied.ratchet hr).1, (hexists (by decide)).not.mpr (htied.ratchet hr).2⟩
      · exact ⟨(htied.sequence hs).1, (hexists (by decide)).not.mpr (htied.sequence hs).2⟩
      · exact ⟨(htied.trust ht).1, (hexists (by decide)).not.mpr (htied.trust ht).2⟩
  cases n with
  | some x =>
    refine wp_change (hC d ⟨m, h⟩) (hQ _ (hbody (within_insert _ rfl) ?_))
    rw [lookup_insert_ite, if_pos rfl]
  | none =>
    refine wp_change (hC d ⟨m, h⟩) (hQ _ (hbody (within_erase rfl) ?_))
    rw [lookup_erase_ite, if_pos rfl]

end
end Kilogram.State
