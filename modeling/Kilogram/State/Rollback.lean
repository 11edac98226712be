import Kilogram.State.Journal

/-!
# Rollback

Each part of a rollback works in a zone of its own and can be cut anywhere: the transaction is then
still on its way with the same target.
-/

namespace Kilogram.State
open Crash Crash.Prog FileSystem
open List (length_singleton mem_append_left mem_append_right mem_cons mem_cons_self mem_singleton not_mem_nil
  prefix_append)

section
variable {sys : System} {C : Disk → Prop} {E : StateError → Disk → Prop} {m : TransactionManifest}
  {T : Target} {d : Disk}

theorem wp_readManifest {Q : TransactionManifest → Disk → Prop} (h : Journal d.files m T) (hQ : Q m d) :
    wp sys readManifest Q C E d := by
  refine wp_bind (wp_readFile h.manifest (wp_bind (wp_lift ?_ ?_)))
  · rintro _ ⟨⟩
    exact wp_bind (wp_failIf (fun hv => absurd h.version hv) fun _ => wp_pure hQ)
  · rintro _ ⟨⟩

variable {p q : Path} {Q : Unit → Disk → Prop} {names : List String} {d' d : Disk} {name : String}

theorem ValidRelative.append (hp : ValidRelative p) (hq : ValidRelative q) : ValidRelative (p ++ q) :=
  ⟨by simp [hp.1], fun c hc => (List.mem_append.mp hc).elim (hp.2 c) (hq.2 c)⟩

theorem ratchetSource_dir (m : TransactionManifest) :
    ∃ name, ValidRelative name ∧ (ratchetSource m).2 = activeDirectory ++ name := by
  unfold ratchetSource
  split
  · exact ⟨["primary-backup", ratchetDirectory], by decide, rfl⟩
  · exact ⟨["backup", ratchetDirectory], by decide, rfl⟩

theorem Journal.ratchet_backup (h : Journal d.files m T) (hs : (ratchetSource m).1 = true) :
    d.files.Exists (ratchetSource m).2 ∧ d.files.file (ratchetSource m).2 = none ∧
      ∀ r, r ≠ [] → d.files.file ((ratchetSource m).2 ++ r) = T.ratchet r := by
  have := h.ratchet
  rwa [TreeBackup, if_pos hs] at this

theorem below_iff {dir : Path} : Below dir p ↔ ∃ r, r ≠ [] ∧ p = dir ++ r := by
  constructor
  · rintro ⟨⟨r, rfl⟩, hne⟩
    exact ⟨r, fun hr => hne (by rw [hr, List.append_nil]), rfl⟩
  · rintro ⟨r, hr, rfl⟩
    exact ⟨prefix_append dir r, by simpa using hr⟩

theorem wp_checkRollback (h : Live m T d) (hQ : Q () d) : wp sys (checkRollback m) Q C E d := by
  have hj := h.journal
  have hsequence : wp sys (when (sequenceSource m).1 (checkSequenceBackup (sequenceSource m).2)) Q C E d := by
    refine wp_when (fun hsource => wp_bind (wp_files (wp_failIf (fun hno => ?_) fun _ => hQ))) fun _ => hQ
    have hne := hj.sequenceExisted hsource
    rw [hj.sequence, if_pos hsource] at hne
    obtain ⟨c, hc⟩ := Option.ne_none_iff_exists'.mp hne
    exact absurd hno (not_or.mpr ⟨not_not.mpr (exists_of_file hc), hne⟩)
  refine wp_bind (wp_forM_const (fun p hp => ?_) (wp_bind (wp_forM_const (fun p hp => ?_)
    (wp_bind (wp_when (fun hsource => ?_) fun _ => hsequence)))))
  · obtain ⟨hvalid, name, hn, hbelow⟩ := hj.appendOnly p hp
    exact wp_bind (wp_validateRelative hvalid (wp_failIf (fun hno => absurd ⟨name, hn, hbelow.1⟩ hno) fun _ => rfl))
  · obtain ⟨hkind, hmem, hbackup⟩ := hj.compacted p hp
    obtain ⟨hvalid, happend⟩ := hj.appendOnly p hmem
    obtain ⟨c, hc⟩ := Option.ne_none_iff_exists'.mp ((hj.mem_appendOnly p happend).mp hmem)
    rw [hc] at hbackup
    refine wp_bind (wp_validateRelative hvalid (wp_bind (wp_failIf (fun hno => ?_) fun _ => ?_)))
    · exact absurd hno (not_or.mpr ⟨not_not.mpr hkind, not_not.mpr hmem⟩)
    · refine wp_bind (wp_files (wp_bind (wp_failIf (fun hno => ?_) fun _ => ?_)))
      · exact absurd (exists_of_file hbackup) hno
      · exact wp_failIf (fun hno => by rw [hbackup] at hno; cases hno) fun _ => rfl
  · obtain ⟨hex, hfile, hcontents⟩ := hj.ratchet_backup hsource
    refine wp_bind (wp_files (wp_bind (wp_failIf (fun hno => absurd hex hno) fun _ => ?_)))
    refine wp_bind (wp_collectRelativeFiles hfile (fun p hp hne => ?_) fun _ _ => wp_pure hsequence)
    obtain ⟨r, hr, rfl⟩ := below_iff.mp hp
    obtain ⟨name, hname, hdir⟩ := ratchetSource_dir m
    rw [hcontents r hr] at hne
    rw [hdir, List.append_assoc, List.drop_left]
    exact hname.append (h.sound.names r hr hne)

/-- The entry is in one of the zones that a rollback works in. -/
theorem Live.of_zone (h : Live m T d) (hw : Within (Zone names) d d')
    (hnames : transactionDirectory ∉ names) (hkept : Kept d'.files m T)
    (hallowed : ∀ p n, Zone names p → d'.files.lookup p = some n → Allowed p n) : Live m T d' := by
  refine h.of_within hw (fun p hp => (zone_of_active hp).not_of_disjoint _ ?_) hkept (h.orderly.of_within hw hallowed)
  intro n hn
  rwa [mem_singleton.mp hn]

theorem zone_singleton : Zone [name] p ↔ [name] <+: p := by
  constructor
  · rintro ⟨n, hn, hp⟩
    rw [mem_singleton.mp hn] at hp
    cases p with
    | nil => cases hp
    | cons x p =>
      cases hp
      exact ⟨p, rfl⟩
  · exact zone_of_below (.head _) rfl

theorem allowed_ratchet_directory (hp : Zone [ratchetDirectory] p) : Allowed p .directory :=
  hp.not_of_disjoint _ (by decide)

theorem allowed_ratchet_file {r : Path} {c : Content} (hr : r ≠ [])
    (hc : r = ["account.pickle"] → c ≠ orderedAccountFence) :
    Allowed (ratchetDirectory :: r) (.file c) := by
  have hz : Zone [ratchetDirectory] (ratchetDirectory :: r) := ⟨_, .head _, rfl⟩
  refine ⟨?_, ?_, ?_, ?_⟩
  · rintro name - heq
    exact hr (List.cons.inj heq).2
  · intro name hn hp
    exact hz.not_of_disjoint fileNames (by decide) (zone_of_below hn rfl hp.1)
  · intro hp
    exact absurd hp.zone (hz.not_of_disjoint _ (by decide))
  · intro heq
    exact hc (List.cons.inj heq).2

/-- In the zone of the ratchet anything may change, but its directory is none and its account is not
the fence. -/
theorem Live.of_ratchet_zone (h : Live m T d) (hw : Within (Zone [ratchetDirectory]) d d')
    (hroot : d'.files.file [ratchetDirectory] = none) (hfence : ¬ HasOrderedFence d'.files) :
    Live m T d' := by
  refine h.of_zone hw (by decide) (h.kept_of_within hw fun p hp => hp.zone.not_of_disjoint _ (by decide)) ?_
  intro p n hp hn
  cases n with
  | directory => exact allowed_ratchet_directory hp
  | file c =>
    obtain ⟨r, rfl⟩ := zone_singleton.mp hp
    have hc : d'.files.file (ratchetDirectory :: r) = some c := file_eq_some.mpr hn
    refine allowed_ratchet_file ?_ ?_
    · rintro rfl
      rw [hroot] at hc
      cases hc
    · rintro rfl rfl
      exact hfence hc

/-- Every content below the directory of the ratchet is an old one or that of the target. -/
theorem Live.of_ratchet (h : Live m T d) (hw : Within (Zone [ratchetDirectory]) d d')
    (hfile : ∀ r, d'.files.file (ratchetDirectory :: r) = d.files.file (ratchetDirectory :: r) ∨
      d'.files.file (ratchetDirectory :: r) = none ∨
      r ≠ [] ∧ d'.files.file (ratchetDirectory :: r) = T.ratchet r) : Live m T d' := by
  refine h.of_ratchet_zone hw ?_ fun hfence => ?_
  · rcases hfile [] with heq | hnone | ⟨hr, -⟩
    · exact heq.trans (h.orderly.file_eq_none (by decide))
    · exact hnone
    · exact absurd rfl hr
  · have hfence : d'.files.file (ratchetDirectory :: ["account.pickle"]) = some orderedAccountFence := hfence
    rcases hfile ["account.pickle"] with heq | hnone | ⟨-, heq⟩
    · exact h.orderly.not_hasOrderedFence (heq.symm.trans hfence)
    · rw [hnone] at hfence
      cases hfence
    · exact h.sound.fence (heq.symm.trans hfence)

theorem wp_restoreRatchet (h : Live m T d) (hC : ∀ d', Live m T d' → C d')
    (hQ : ∀ d', Live m T d' → Within (Zone [ratchetDirectory]) d d' →
      (∀ r, r ≠ [] → d'.files.file (ratchetDirectory :: r) = T.ratchet r) → Q () d') :
    wp sys (restoreRatchet m) Q C E d := by
  refine wp_bind (wp_removeTreeIfPresent (h.orderly.file_eq_none (by decide)) (fun d₁ hd₁ => ?_) fun d₁ hd₁ => ?_)
  · refine hC d₁ (h.of_ratchet (hd₁.within.mono fun p hp => zone_singleton.mpr hp.1) fun r => ?_)
    exact (hd₁.file_or _).imp_right .inl
  · have hw₁ : Within (Zone [ratchetDirectory]) d d₁ := hd₁.within.mono fun p hp => zone_singleton.mpr hp
    have hnone (r : Path) : d₁.files.file (ratchetDirectory :: r) = none := hd₁.file ⟨r, rfl⟩
    have h₁ : Live m T d₁ := h.of_ratchet hw₁ fun r => .inr (.inl (hnone r))
    have hj := h₁.journal
    refine wp_when (fun hsource => ?_) fun hsource => hQ d₁ h₁ hw₁ fun r hr => ?_
    · obtain ⟨hex, hfile, hcontents⟩ := hj.ratchet_backup hsource
      obtain ⟨name, -, hdir⟩ := ratchetSource_dir m
      have hzone {d' : Disk} (hw : Within ([ratchetDirectory] <+: ·) d₁ d') :
          Within (Zone [ratchetDirectory]) d₁ d' := hw.mono fun p hp => zone_singleton.mpr hp
      refine wp_copyTree hfile (fun q hq hq' => ?_) (fun d₂ hd₂ => hC d₂ ?_) fun d₂ hd₂ => ?_
      · exact (zone_of_active ((hdir ▸ prefix_append _ _).trans hq)).not_of_disjoint [ratchetDirectory] (by decide) (zone_singleton.mpr hq')
      · refine h₁.of_ratchet (hzone hd₂.within) fun r => ?_
        rcases hd₂.file r with heq | ⟨hr, -, heq⟩
        · exact .inl heq
        · exact .inr (.inr ⟨hr, heq.trans (hcontents r hr)⟩)
      · refine hQ d₂ (h₁.of_ratchet (hzone hd₂.within) fun r => ?_) (hw₁.trans (hzone hd₂.within)) ?_
        · rcases hd₂.file r with heq | ⟨hr, -, heq⟩
          · exact .inl heq
          · exact .inr (.inr ⟨hr, heq.trans (hcontents r hr)⟩)
        · intro r hr
          by_cases hne : d₁.files.file ((ratchetSource m).2 ++ r) = none
          · rcases hd₂.file r with heq | ⟨-, hne', -⟩
            · rw [← hcontents r hr, hne]
              exact heq.trans (hnone r)
            · exact absurd hne hne'
          · exact (hd₂.copied r hr hne).trans (hcontents r hr)
    · have := hj.ratchet
      rw [TreeBackup, if_neg hsource] at this
      rw [hnone, this r hr]

theorem allowed_nil (n : Node) : Allowed [] n := by
  cases n with
  | directory =>
    rintro ⟨name, -, hname⟩
    cases hname
  | file c =>
    refine ⟨by simp, ?_, ?_, by simp [accountPickle]⟩
    · rintro name - ⟨hp, -⟩
      simp at hp
    · rintro ⟨name, -, hp, -⟩
      simp at hp

theorem notMem_of_temporary {t : String} (ht : t.toList.take 4 = ['.', 't', 'm', 'p']) :
    t ∉ fileNames ++ treeNames := by
  intro hmem
  have hnames : ∀ n ∈ fileNames ++ treeNames, n.toList.take 4 ≠ ['.', 't', 'm', 'p'] := by decide +kernel
  exact hnames t hmem ht

theorem not_isTemporary_name (hn : name ∈ fileNames ++ treeNames) {dir : Path} : ¬ IsTemporary dir [name] := by
  rintro ⟨t, ht, heq⟩
  have hlen := congrArg List.length heq
  rw [List.length_append, length_singleton, length_singleton] at hlen
  rw [List.length_eq_zero_iff.mp (by omega : dir.length = 0)] at heq
  obtain ⟨rfl, -⟩ := List.cons.inj heq
  exact notMem_of_temporary ht hn

theorem allowed_temporary {t : String} (ht : t.toList.take 4 = ['.', 't', 'm', 'p']) (n : Node) : Allowed [t] n := by
  have hmem := notMem_of_temporary ht
  cases n with
  | directory =>
    rintro ⟨name, hn, hname⟩
    cases hname
    exact hmem (mem_append_left _ hn)
  | file c =>
    refine ⟨?_, ?_, ?_, by simp [accountPickle]⟩
    · rintro name hn heq
      obtain ⟨rfl, -⟩ := List.cons.inj heq
      exact hmem (mem_append_right _ hn)
    · rintro name - ⟨hp, hne⟩
      exact hne (hp.eq_of_length rfl).symm
    · rintro ⟨name, -, hp, hne⟩
      exact absurd (hp.eq_of_length rfl).symm hne

theorem allowed_sequence (c : Content) : Allowed [nextSequenceFile] (.file c) := by
  refine ⟨?_, ?_, ?_, by simp [accountPickle]⟩
  · unfold treeNames
    decide
  · rintro name - ⟨hp, hne⟩
    exact hne (List.IsPrefix.eq_of_length hp rfl).symm
  · intro hp
    exact absurd hp.zone (by unfold Zone; decide)

/-- Where the writing of the sequence may leave something. -/
def SequencePlace (q : Path) : Prop := q = [nextSequenceFile] ∨ q = [] ∨ IsTemporary [] q

theorem SequencePlace.length_le (h : SequencePlace q) : q.length ≤ 1 := by
  rcases h with rfl | rfl | ⟨t, -, rfl⟩ <;> simp

theorem Live.of_sequence (h : Live m T d) (hw : Within SequencePlace d d')
    (hfile : d'.files.lookup [nextSequenceFile] ≠ some .directory) : Live m T d' := by
  refine h.of_within hw ?_ (h.kept_of_within hw ?_) (h.orderly.of_within hw ?_)
  · intro p hp hq
    exact absurd (hp.length_le.trans hq.length_le) (by decide)
  · rintro p ⟨name, -, hp⟩ hq
    exact hp.2 (hp.1.eq_of_length_le hq.length_le).symm
  · rintro p n (rfl | rfl | ⟨t, ht, rfl⟩) hn
    · cases n with
      | directory => exact absurd hn hfile
      | file c => exact allowed_sequence c
    · exact allowed_nil n
    · exact allowed_temporary ht n

theorem wp_restoreSequence (h : Live m T d) (hC : ∀ d', Live m T d' → C d')
    (hQ : ∀ d', Live m T d' → Within SequencePlace d d' → d'.files.file [nextSequenceFile] = T.sequence → Q () d') :
    wp sys (restoreSequence m) Q C E d := by
  refine wp_bind (wp_removeFileIfPresent (h.orderly.not_isDirectory (by decide)) (hC d h) fun d₁ hd₁ hnone => ?_)
  have hw₁ : Within SequencePlace d d₁ := hd₁.mono fun _ => .inl
  have h₁ : Live m T d₁ := h.of_sequence hw₁ (by rw [hnone]; simp)
  have hfile₁ : d₁.files.file [nextSequenceFile] = none := by
    rw [FileSystem.file, hnone]
    rfl
  have hj := h₁.journal
  refine wp_when (fun hsource => ?_) fun hsource => hQ d₁ h₁ hw₁ ?_
  · have hsome := hj.sequenceExisted hsource
    have hbackup := hj.sequence
    rw [if_pos hsource] at hbackup
    obtain ⟨c, hc⟩ := Option.ne_none_iff_exists'.mp hsome
    have hw {d₂ : Disk} (hd₂ : Wrote [nextSequenceFile] c d₁ d₂) : Within SequencePlace d₁ d₂ :=
      hd₂.within.mono fun _ hq => hq.imp_right .inl
    refine wp_copyFile (hbackup.symm.trans hc) (fun d₂ hd₂ => hC d₂ (h₁.of_sequence ?_ ?_))
      fun d₂ hd₂ => hQ d₂ (h₁.of_sequence (hw hd₂) ?_) (hw₁.trans (hw hd₂)) (hd₂.file.trans hc.symm)
    · exact hd₂.within.mono fun _ hq => .inr (.inl hq)
    · rw [hd₂.within.lookup _ (by simp), hnone]
      simp
    · rw [file_eq_some.mp hd₂.file]
      simp
  · rw [hfile₁, hj.sequence, if_neg hsource]

/-- Entries of the zone are gone, and nothing else has changed. -/
structure Lost (names : List String) (d d' : Disk) : Prop where
  within : Within (Zone names) d d'
  lookup : ∀ p, d'.files.lookup p = d.files.lookup p ∨ d'.files.lookup p = none

theorem Lost.refl (names : List String) (d : Disk) : Lost names d d := ⟨.refl _ d, fun _ => .inl rfl⟩

theorem Lost.trans {d'' : Disk} (h : Lost names d d') (h' : Lost names d' d'') : Lost names d d'' := by
  refine ⟨h.within.trans h'.within, fun p => ?_⟩
  rcases h'.lookup p with heq | hnone
  · rw [heq]
    exact h.lookup p
  · exact .inr hnone

theorem Lost.lookup_eq_none (h : Lost names d d') (hp : d.files.lookup p = none) : d'.files.lookup p = none :=
  (h.lookup p).elim (fun heq => heq.trans hp) id

theorem Pruned.lost (hn : name ∈ names) (h : Pruned sys [name] d d') : Lost names d d' :=
  ⟨h.within.mono fun _ hp => zone_of_below hn rfl hp.1, h.lookup_or⟩

theorem Cleared.lost (hn : name ∈ names) (h : Cleared [name] d d') : Lost names d d' := by
  refine ⟨h.within.mono fun _ hp => zone_of_below hn rfl hp, fun p => ?_⟩
  by_cases hp : [name] <+: p
  · exact .inr (h.lookup p hp)
  · exact .inl (h.within.lookup p hp)

theorem lost_of_point (hn : name ∈ names)
    (h : Within (· = [name]) d d') (hnone : d'.files.lookup [name] = none) : Lost names d d' := by
  refine ⟨h.mono fun p hp => ⟨name, hn, by rw [hp]; rfl⟩, fun p => ?_⟩
  by_cases hp : p = [name]
  · exact .inr (hp ▸ hnone)
  · exact .inl (h.lookup p hp)

def trustNames : List String := trustFiles ++ trustDirectories

theorem Orderly.lookup_trust_file {fs : FileSystem} (h : Orderly fs)
    (hn : name ∈ trustFiles) (hnone : fs.lookup [name] = none) (hp : [name] <+: p) :
    fs.lookup p = none := by
  have hmem : name ∈ fileNames := List.mem_cons_of_mem _ hn
  cases hl : fs.lookup p with
  | none => rfl
  | some n =>
    have hallowed := h p n hl
    cases n with
    | directory => exact absurd (zone_of_below hmem rfl hp) hallowed
    | file c =>
      refine absurd ⟨hp, ?_⟩ (hallowed.2.1 name hmem)
      rintro rfl
      rw [hnone] at hl
      cases hl

theorem wp_clearTrustContents (h : Orderly d.files) (hC : ∀ d', Lost trustNames d d' → C d')
    (hQ : ∀ d', Lost trustNames d d' → (∀ p, Zone trustNames p → d'.files.lookup p = none) → Q () d') :
    wp sys clearTrustContents Q C E d := by
  refine wp_bind (wp_forM (fun l d' => (∀ n ∈ l, n ∈ trustFiles) ∧ Lost trustNames d d' ∧
    ∀ n ∈ trustFiles, n ∉ l → d'.files.lookup [n] = none) ?_
    ⟨fun _ hn => hn, .refl _ d, fun n hn hnot => absurd hn hnot⟩ ?_)
  · rintro name l d' ⟨hl, hlost, hdone⟩
    have hname := hl name (.head _)
    refine wp_removeFileIfPresent ((h.of_subset hlost.lookup).not_isDirectory
      (.tail _ hname)) (hC d' hlost) fun d₁ hd₁ hnone => ?_
    have hlost₁ : Lost trustNames d' d₁ := lost_of_point (mem_append_left _ hname) hd₁ hnone
    refine ⟨fun n hn => hl n (.tail _ hn), hlost.trans hlost₁, fun n hn hnot => ?_⟩
    by_cases heq : n = name
    · rw [heq, hnone]
    · exact hlost₁.lookup_eq_none (hdone n hn fun hmem => (mem_cons.mp hmem).elim heq hnot)
  · rintro d₁ ⟨-, hlost, hfiles⟩
    have hgone (p : Path) (hp : Zone trustFiles p) : d₁.files.lookup p = none := by
      obtain ⟨name, hn, hhead⟩ := hp
      refine (h.of_subset hlost.lookup).lookup_trust_file hn (hfiles name hn not_mem_nil) ?_
      exact zone_singleton.mp ⟨name, List.mem_singleton_self _, hhead⟩
    refine wp_forM (fun l d' => (∀ n ∈ l, n ∈ trustDirectories) ∧ Lost trustNames d d' ∧
      (∀ p, Zone trustFiles p → d'.files.lookup p = none) ∧
      ∀ n ∈ trustDirectories, n ∉ l → ∀ p, [n] <+: p → d'.files.lookup p = none) ?_
      ⟨fun _ hn => hn, hlost, hgone, fun n hn hnot => absurd hn hnot⟩ ?_
    · rintro name l d' ⟨hl, hlost', hfiles', hdone⟩
      have hname := hl name (.head _)
      have hmem : name ∈ trustNames := mem_append_right _ hname
      refine wp_removeTreeIfPresent ((h.of_subset hlost'.lookup).file_eq_none ?_)
        (fun d₂ hd₂ => hC d₂ (hlost'.trans (hd₂.lost hmem))) fun d₂ hd₂ => ?_
      · exact mem_append_left _ (.tail _ hname)
      · have hlost₂ : Lost trustNames d' d₂ := hd₂.lost hmem
        refine ⟨fun n hn => hl n (.tail _ hn), hlost'.trans hlost₂,
          fun p hp => hlost₂.lookup_eq_none (hfiles' p hp), fun n hn hnot p hp => ?_⟩
        by_cases heq : n = name
        · exact hd₂.lookup p (heq ▸ hp)
        · exact hlost₂.lookup_eq_none (hdone n hn (fun hmem => (mem_cons.mp hmem).elim heq hnot) p hp)
    · rintro d' ⟨-, hlost', hfiles', hdone⟩
      refine hQ d' hlost' fun p hp => ?_
      obtain ⟨name, hn, hhead⟩ := hp
      rcases List.mem_append.mp hn with hn | hn
      · exact hfiles' p ⟨name, hn, hhead⟩
      · exact hdone name hn not_mem_nil p (zone_singleton.mp ⟨name, List.mem_singleton_self _, hhead⟩)

theorem Live.of_lost (h : Live m T d) (hl : Lost names d d')
    (hnames : ∀ n ∈ names, n ∉ transactionDirectory :: appendOnlyRoots) : Live m T d' := by
  refine h.of_within hl.within (fun p hp hz => ?_) (h.kept_of_within hl.within fun p hp hz => ?_)
    (h.orderly.of_subset hl.lookup)
  · exact hz.not_of_disjoint _ (fun n hn hmem => hnames n hn (mem_cons.mpr
      (.inl (mem_singleton.mp hmem)))) (zone_of_active hp)
  · exact hz.not_of_disjoint _ (fun n hn hmem => hnames n hn (.tail _ hmem)) hp.zone

theorem TrustPath.kind (h : TrustPath p) : stateRecordKindForPath p = .trust := by
  rcases h with ⟨name, hn, rfl⟩ | ⟨name, hn, ⟨r, rfl⟩, hne⟩
  · revert name
    decide
  · simp only [trustDirectories, mem_cons, not_mem_nil, or_false] at hn
    rcases hn with rfl | rfl | rfl | rfl <;> rfl

/-- Where the writing of trust files may leave something. -/
def TrustPlace (q : Path) : Prop := q = [] ∨ Zone trustNames q ∨ IsTemporary [] q

theorem TrustPath.ne_nil (h : TrustPath p) : p ≠ [] := by
  rintro rfl
  obtain ⟨name, -, hname⟩ := h.zone
  cases hname

theorem TrustPath.place (h : TrustPath p)
    (hq : q = p ∨ q = p.dropLast ∨ IsTemporary p.dropLast q) : TrustPlace q := by
  rcases h with ⟨name, hn, rfl⟩ | ⟨name, hn, hp⟩
  · rcases hq with rfl | rfl | hq
    · exact .inr (.inl ⟨name, mem_append_left _ hn, rfl⟩)
    · exact .inl rfl
    · exact .inr (.inr hq)
  · obtain ⟨r, hr, rfl⟩ := below_iff.mp hp
    have hparent : ([name] ++ r).dropLast = [name] ++ r.dropLast := List.dropLast_append_of_ne_nil hr
    refine .inr (.inl (zone_of_below (mem_append_right _ hn) rfl (?_ : [name] <+: q)))
    rw [hparent] at hq
    rcases hq with rfl | rfl | ⟨t, -, rfl⟩
    · exact prefix_append _ _
    · exact prefix_append _ _
    · rw [List.append_assoc]
      exact prefix_append _ _

theorem TrustPlace.not_active (h : TrustPlace q) : ¬ activeDirectory <+: q := by
  rintro hq
  rcases h with rfl | h | ⟨t, -, rfl⟩
  · cases List.prefix_nil.mp hq
  · exact h.not_of_disjoint _ (by decide) (zone_of_active hq)
  · exact absurd hq.length_le (by simp [activeDirectory])

theorem TrustPlace.not_appendOnly (h : TrustPlace q) : ¬ AppendOnly q := by
  rintro hq
  rcases h with rfl | h | ⟨t, -, rfl⟩
  · obtain ⟨name, -, hname⟩ := hq.zone
    cases hname
  · exact h.not_of_disjoint _ (by decide) hq.zone
  · obtain ⟨name, -, hp, hne⟩ := hq
    exact hne (hp.eq_of_length rfl).symm

theorem allowed_trust_below (hn : name ∈ trustDirectories) (hq : Below [name] q) (n : Node) : Allowed q n := by
  have hz : Zone trustDirectories q := zone_of_below hn rfl hq.1
  cases n with
  | directory => exact hz.not_of_disjoint _ (by decide)
  | file c =>
    refine ⟨?_, ?_, ?_, ?_⟩
    · rintro name' - rfl
      exact hq.2 (hq.1.eq_of_length rfl).symm
    · intro name' hn' hp
      exact hz.not_of_disjoint fileNames (by decide) (zone_of_below hn' rfl hp.1)
    · intro hp
      exact absurd hp.zone (hz.not_of_disjoint _ (by decide))
    · rintro rfl
      exact absurd hz (by unfold Zone; decide)

theorem TrustPath.allowed (h : TrustPath p) (c : Content) : Allowed p (.file c) := by
  rcases h with ⟨name, hn, rfl⟩ | ⟨name, hn, hp⟩
  · refine ⟨?_, ?_, ?_, by simp [accountPickle]⟩
    · have hdisjoint : ∀ n ∈ trustFiles, n ∉ treeNames := by decide
      rintro name' hn' heq
      obtain ⟨rfl, -⟩ := List.cons.inj heq
      exact hdisjoint name hn hn'
    · rintro name' - ⟨hp, hne⟩
      exact hne (hp.eq_of_length rfl).symm
    · rintro ⟨name', -, hp, hne⟩
      exact absurd (hp.eq_of_length rfl).symm hne
  · exact allowed_trust_below hn hp _

theorem TrustPath.cases (h : TrustPath p) :
    (∃ name ∈ trustFiles, p = [name]) ∨ ∃ name ∈ trustDirectories, ∃ r, r ≠ [] ∧ p = name :: r := by
  refine h.imp id ?_
  rintro ⟨name, hn, hp⟩
  obtain ⟨r, hr, rfl⟩ := below_iff.mp hp
  exact ⟨name, hn, r, hr, rfl⟩

/-- The directory of a trust file is the root or in the zone of a trust directory. -/
theorem TrustPath.dropLast (h : TrustPath p) :
    p.dropLast = [] ∨ ∃ name ∈ trustDirectories, [name] <+: p.dropLast := by
  rcases h.cases with ⟨name, -, rfl⟩ | ⟨name, hn, r, hr, rfl⟩
  · exact .inl rfl
  · refine .inr ⟨name, hn, r.dropLast, ?_⟩
    rw [List.dropLast_cons_of_ne_nil hr]
    rfl

variable {contents : Contents} {Q : PUnit → Disk → Prop}

theorem Live.of_filled (h : Live m T d)
    (hkeys : ∀ x ∈ contents, TrustPath x) (hfill : FilledPart id contents d d') : Live m T d' := by
  have hplace (q : Path) (hq : ∃ x ∈ contents, q = id x ∨ q = (id x).dropLast ∨
      IsTemporary (id x).dropLast q) : TrustPlace q := by
    obtain ⟨x, hx, hq⟩ := hq
    exact (hkeys x hx).place hq
  refine h.of_within hfill.within (fun p hp hq => (hplace p hq).not_active hp)
    (h.kept_of_within hfill.within fun p hp hq => (hplace p hq).not_appendOnly hp)
    (h.orderly.of_within hfill.within ?_)
  rintro q n ⟨x, hx, hq⟩ hn
  rcases hq with hq | rfl | ⟨t, ht, rfl⟩
  · -- a trust file: no directory is made at its place
    rw [show q = x from hq] at hn ⊢
    cases n with
    | file c => exact (hkeys x hx).allowed c
    | directory =>
      rcases hfill.directory x hn with hold | ⟨y, hy, heq⟩
      · exact h.orderly _ _ hold
      · rcases (hkeys y hy).dropLast with hnil | ⟨name, hname, hq⟩
        · rw [heq, id, hnil]
          exact allowed_nil _
        · have hzone : Zone trustDirectories x := zone_of_below hname rfl (heq ▸ hq)
          exact hzone.not_of_disjoint _ (by decide)
  · rcases (hkeys x hx).dropLast with hnil | ⟨name, hname, hq⟩
    · rw [id, hnil]
      exact allowed_nil _
    · cases n with
      | directory => exact (zone_of_below hname rfl hq).not_of_disjoint _ (by decide)
      | file c =>
        by_cases hbelow : (id x).dropLast = [name]
        · -- no file has taken the place of a trust directory
          exfalso
          rw [hbelow] at hn
          have hmem := mem_append_left appendOnlyRoots (List.mem_cons_of_mem ratchetDirectory hname)
          rcases hfill.file [name] fun y _ => not_isTemporary_name (mem_append_right _ hmem) with
            heq | ⟨y, c', hy, heq, -⟩
          · rw [h.orderly.file_eq_none hmem, file_eq_some.mpr hn] at heq
            cases heq
          · have hdisjoint : ∀ n ∈ trustDirectories, n ∉ trustFiles := by decide
            have hyx : y ∈ contents := AList.lookup_isSome.mp (by rw [hy]; rfl)
            rcases (hkeys y hyx).cases with ⟨f, hf, hyf⟩ | ⟨f, hf, r, hr, hyf⟩
            · rw [id, hyf] at heq
              obtain ⟨rfl, -⟩ := List.cons.inj heq
              exact hdisjoint name hname hf
            · rw [id, hyf] at heq
              exact hr (List.cons.inj heq).2.symm
        · exact allowed_trust_below hname ⟨hq, hbelow⟩ _
  · rcases (hkeys x hx).dropLast with hnil | ⟨name, hname, hq⟩
    · rw [id, hnil]
      exact allowed_temporary ht n
    · refine allowed_trust_below hname ⟨hq.trans (prefix_append _ _), fun heq => ?_⟩ n
      have hlen := congrArg List.length heq
      have := hq.length_le
      rw [List.length_append, length_singleton, length_singleton] at *
      omega

theorem Filled.filledPart {place : Path → Path}
    (h : Filled place contents d d') : FilledPart place contents d d' := by
  refine ⟨h.within.mono ?_, fun q _ => ?_, h.directory⟩
  · rintro q ⟨x, hx, hq⟩
    exact ⟨x, hx, hq.imp_right .inl⟩
  · by_cases hq : ∀ x ∈ contents, q ≠ place x
    · exact .inl (h.other q hq)
    · push Not at hq
      obtain ⟨x, hx, rfl⟩ := hq
      obtain ⟨c, hc⟩ := Option.isSome_iff_exists.mp (AList.lookup_isSome.mpr hx)
      exact .inr ⟨x, c, hc, rfl, h.written x c hc⟩

theorem Filled.trust (h : Filled id contents d d')
    (hnone : ∀ p, Zone trustNames p → d.files.lookup p = none) (hp : TrustPath p) :
    d'.files.file p = contents.lookup p := by
  cases hl : contents.lookup p with
  | some c => exact h.written p c hl
  | none =>
    rw [h.other p ?_, FileSystem.file, hnone p hp.zone]
    · rfl
    · rintro x hx rfl
      exact AList.lookup_eq_none.mp hl hx

theorem wp_restoreTrust (h : Live m T d) (hm : m.trustPrimaryPrepared) (hC : ∀ d', Live m T d' → C d')
    (hQ : ∀ d' contents, Live m T d' → Within TrustPlace d d' → T.trust = some contents →
      (∀ p, TrustPath p → d'.files.file p = contents p) → Q () d') :
    wp sys restoreTrust Q C E d := by
  have hj := h.journal.trust
  rw [if_pos hm] at hj
  obtain ⟨contents, hT, hex, -, -⟩ := hj
  refine wp_bind (wp_files (wp_bind (wp_failIf (fun hno => absurd hex hno) fun _ => wp_bind ?_)))
  refine wp_clearTrustContents h.orderly (fun d₁ hd₁ => hC d₁ (h.of_lost hd₁ (by decide))) fun d₁ hd₁ hnone => ?_
  have h₁ : Live m T d₁ := h.of_lost hd₁ (by decide)
  have hj := h₁.journal.trust
  rw [if_pos hm] at hj
  obtain ⟨contents', hT', -, hfile, hbackup⟩ := hj
  cases hT.symm.trans hT'
  refine wp_bind (wp_collectTreeContents (List.prefix_refl _) hfile (fun p hp hne => ?_) fun backup hread => ?_)
  · obtain ⟨r, hr, rfl⟩ := below_iff.mp hp
    rw [hbackup r hr] at hne
    rw [List.drop_left]
    exact (h.sound.trust contents hT r hne).2
  · have hlookup (p : Path) : backup.lookup p = contents p := by
      rw [hread p]
      split_ifs with hp
      · exact hbackup p fun hnil => hp.2 (by rw [hnil, List.append_nil])
      · by_contra hne
        have htrust := (h.sound.trust contents hT p (Ne.symm hne)).1
        exact hp (below_iff.mpr ⟨p, htrust.ne_nil, rfl⟩)
    have hkeys (x : Path) (hx : x ∈ backup) : TrustPath x := by
      refine (h.sound.trust contents hT x ?_).1
      rw [← hlookup]
      exact AList.lookup_eq_none.not.mpr (not_not.mpr hx)
    refine wp_writeAll id (fun x hx d₂ Q' hwrite => ?_) (fun x hx => (hkeys x hx).ne_nil)
      (fun x _ y _ heq => heq) (fun d₂ hd₂ => hC d₂ (h₁.of_filled hkeys hd₂)) fun d₂ hd₂ => ?_
    · refine wp_bind (wp_failIf (fun hno => absurd (hkeys x.1 ?_).kind hno) fun _ => hwrite)
      exact AList.lookup_isSome.mp (by rw [mem_of_entries hx]; rfl)
    · refine hQ d₂ contents (h₁.of_filled hkeys hd₂.filledPart) ?_ hT fun p hp => ?_
      · refine (hd₁.within.mono fun p hp => .inr (.inl hp)).trans (hd₂.within.mono ?_)
        rintro q ⟨x, hx, hq⟩
        exact (hkeys x hx).place (hq.imp_right .inl)
      · rw [hd₂.trust hnone hp, hlookup]

/-- The append-only files are old ones, and their directories lead to old ones. -/
structure Trimmed (m : TransactionManifest) (fs : FileSystem) : Prop where
  file : ∀ q, AppendOnly q → q ∉ m.appendOnlyFiles → fs.file q = none
  directory : ∀ q, AppendOnly q → fs.lookup q = some .directory → ∃ p ∈ m.appendOnlyFiles, Below q p

theorem RemovedPart.live (hn : name ∈ appendOnlyRoots) (h : Live m T d)
    (hr : RemovedPart [name] m.appendOnlyFiles d d') : Live m T d' := by
  refine h.of_within hr.within (fun p hp hq => ?_) (fun p hp hc => ?_) (h.orderly.of_subset hr.lookup)
  · exact (zone_of_active hp).not_of_disjoint appendOnlyRoots (by decide) (zone_of_below hn rfl hq.1)
  · rcases hr.file p with heq | ⟨hnot, -⟩
    · rw [heq]
      exact h.kept p hp hc
    · exact absurd hp hnot

theorem AppendOnly.below (h : AppendOnly p) (hq : p <+: q) : AppendOnly q := by
  obtain ⟨name, hn, hp⟩ := h
  refine ⟨name, hn, hp.1.trans hq, ?_⟩
  rintro rfl
  exact hp.2 (hp.1.eq_of_length_le hq.length_le).symm

theorem wp_removeAllNewFiles (h : Live m T d) (hC : ∀ d', Live m T d' → C d')
    (hQ : ∀ d', Live m T d' → Within (Zone appendOnlyRoots) d d' → Trimmed m d'.files → Q ⟨⟩ d') :
    wp sys (appendOnlyRoots.forM fun name => removeNewFiles [name] m.appendOnlyFiles) Q C E d := by
  refine wp_forM (fun l d' => l.Nodup ∧ (∀ n ∈ l, n ∈ appendOnlyRoots) ∧ Live m T d' ∧
    Within (Zone appendOnlyRoots) d d' ∧ ∀ n ∈ appendOnlyRoots, n ∉ l → ∀ q, Below [n] q →
      (q ∉ m.appendOnlyFiles → d'.files.file q = none) ∧
      (d'.files.lookup q = some .directory → ∃ r, Below q r ∧ d'.files.file r ≠ none)) ?_
    ⟨by decide, fun _ hn => hn, h, .refl _ d, fun n hn hnot => absurd hn hnot⟩ ?_
  · rintro name l d' ⟨hnodup, hl, h', hw, hdone⟩
    have hname := hl name (.head _)
    have hmem : name ∈ treeNames := mem_append_right _ hname
    refine wp_removeNewFiles (h'.orderly.file_eq_none hmem) (fun p hp hne => h'.orderly.valid ⟨name, hname, hp⟩ hne)
      (fun d₁ hd₁ => hC d₁ (hd₁.live hname h')) fun d₁ hd₁ => ⟨(List.nodup_cons.mp hnodup).2,
        fun n hn => hl n (.tail _ hn), hd₁.live hname h',
        hw.trans (hd₁.within.mono fun q hq => zone_of_below hname rfl hq.1), fun n hn hnot q hq => ?_⟩
    by_cases heq : n = name
    · subst heq
      exact ⟨hd₁.removed q hq, hd₁.directory q hq⟩
    · -- the other roots are not touched
      have hother (r : Path) (hr : [n] <+: r) : d₁.files.lookup r = d'.files.lookup r := by
        refine hd₁.within.lookup r fun hbelow => heq ?_
        obtain ⟨s, rfl⟩ := hr
        exact (List.cons_prefix_cons.mp hbelow.1).1.symm
      obtain ⟨hfile, hdir⟩ := hdone n hn (fun h => (mem_cons.mp h).elim heq hnot) q hq
      rw [file_congr (hother q hq.1), hother q hq.1]
      refine ⟨hfile, fun hlookup => ?_⟩
      obtain ⟨r, hr, hne⟩ := hdir hlookup
      exact ⟨r, hr, by rwa [file_congr (hother r (hq.1.trans hr.1))]⟩
  · rintro d' ⟨-, -, h', hw, hdone⟩
    refine hQ d' h' hw ⟨?_, ?_⟩
    · rintro q ⟨n, hn, hq⟩
      exact (hdone n hn not_mem_nil q hq).1
    · rintro q ⟨n, hn, hq⟩ hlookup
      obtain ⟨r, hr, hne⟩ := (hdone n hn not_mem_nil q hq).2 hlookup
      refine ⟨r, ?_, hr⟩
      by_contra hnot
      have hbelow : AppendOnly r := AppendOnly.below ⟨n, hn, hq⟩ hr.1
      obtain ⟨n', hn', hr'⟩ := hbelow
      exact hne ((hdone n' hn' not_mem_nil r hr').1 hnot)

theorem Trimmed.not_isDirectory (h : Trimmed m d.files) (hj : Journal d.files m T)
    (hp : p ∈ m.appendOnlyFiles) : ¬ d.files.IsDirectory p := by
  rintro ⟨hfile, hex⟩
  obtain ⟨q, hq, hne⟩ := exists_iff.mp hex
  have happend : AppendOnly q := (hj.appendOnly p hp).2.below hq
  obtain ⟨n, hn⟩ := Option.ne_none_iff_exists'.mp hne
  cases n with
  | directory =>
    obtain ⟨r, hr, hbelow⟩ := h.directory q happend hn
    refine hj.nested p hp r hr ⟨hq.trans hbelow.1, ?_⟩
    rintro rfl
    exact hbelow.2 (hbelow.1.eq_of_length_le hq.length_le).symm
  | file c =>
    have hc : d.files.file q = some c := file_eq_some.mpr hn
    by_cases heq : q = p
    · rw [← heq, hc] at hfile
      cases hfile
    · refine hj.nested p hp q ?_ ⟨hq, heq⟩
      by_contra hnot
      rw [h.file q happend hnot] at hc
      cases hc

/-- In the append-only roots, entries appear at the path of a compacted file and its directory. -/
theorem Live.of_compacted (h : Live m T d) (hp : p ∈ m.compactedAppendOnlyFiles)
    (hw : Within (fun q => q = p ∨ q = p.dropLast) d d')
    (hfile : ∀ q, q ≠ p → d'.files.file q = d.files.file q) : Live m T d' := by
  obtain ⟨-, hmem, -⟩ := h.journal.compacted p hp
  obtain ⟨hvalid, name, hn, hbelow⟩ := h.journal.appendOnly p hmem
  obtain ⟨r, hr, rfl⟩ := below_iff.mp hbelow
  have hparent : ([name] ++ r).dropLast = [name] ++ r.dropLast := List.dropLast_append_of_ne_nil hr
  have hzone (q : Path) (hq : q = [name] ++ r ∨ q = ([name] ++ r).dropLast) : Zone appendOnlyRoots q := by
    rw [hparent] at hq
    rcases hq with rfl | rfl <;> exact ⟨name, hn, rfl⟩
  refine h.of_within hw (fun q hq hS => ?_) (fun q hq hc => ?_) (h.orderly.of_within hw fun q n hS hl => ?_)
  · exact (hzone q hS).not_of_disjoint _ (by decide) (zone_of_active hq)
  · rw [hfile q fun heq => hc (heq ▸ hp)]
    exact h.kept q hq hc
  · cases n with
    | directory => exact (hzone q hS).not_of_disjoint _ (by decide)
    | file c =>
      by_cases heq : q = [name] ++ r
      · refine ⟨?_, ?_, fun _ => heq ▸ hvalid, ?_⟩
        · rintro name' - rfl
          exact hr (List.cons.inj heq).2.symm
        · intro name' hn' hq
          exact (hzone q hS).not_of_disjoint fileNames (by decide) (zone_of_below hn' rfl hq.1)
        · rintro rfl
          exact absurd (hzone _ hS) (by unfold Zone; decide)
      · have hc : d'.files.file q = some c := file_eq_some.mpr hl
        rw [hfile q heq] at hc
        exact h.orderly q _ (file_eq_some.mp hc)

theorem Trimmed.step (h : Trimmed m d.files) (hp : p ∈ m.appendOnlyFiles)
    (hfile : ∀ q, q ≠ p → d'.files.file q = d.files.file q)
    (hdir : ∀ q, d'.files.lookup q = some .directory → d.files.lookup q = some .directory ∨ q = p.dropLast)
    (hne : p ≠ []) : Trimmed m d'.files := by
  refine ⟨fun q hq hnot => ?_, fun q hq hlookup => ?_⟩
  · rw [hfile q fun heq => hnot (heq ▸ hp)]
    exact h.file q hq hnot
  · rcases hdir q hlookup with hold | rfl
    · exact h.directory q hq hold
    · refine ⟨p, hp, List.dropLast_prefix p, fun heq => ?_⟩
      have hlen := congrArg List.length heq
      have := List.length_pos_of_ne_nil hne
      rw [List.length_dropLast] at hlen
      omega

theorem wp_restoreCompacted (h : Live m T d)
    (htrim : Trimmed m d.files) (hp : p ∈ m.compactedAppendOnlyFiles) (hC : ∀ d', Live m T d' → C d')
    (hQ : ∀ d', Live m T d' → Trimmed m d'.files → Within (Zone appendOnlyRoots) d d' →
      (∀ q, q ≠ p → d'.files.file q = d.files.file q) → d'.files.file p = T.appendOnly p → Q () d') :
    wp sys (restoreCompacted p) Q C E d := by
  obtain ⟨-, hmem, -⟩ := h.journal.compacted p hp
  obtain ⟨hvalid, happend⟩ := h.journal.appendOnly p hmem
  obtain ⟨c, hc⟩ := Option.ne_none_iff_exists'.mp ((h.journal.mem_appendOnly p happend).mp hmem)
  have hzone (q : Path) (hq : q = p ∨ q = p.dropLast) : Zone appendOnlyRoots q := by
    obtain ⟨name, hn, hbelow⟩ := happend
    obtain ⟨r, hr, rfl⟩ := below_iff.mp hbelow
    rw [List.dropLast_append_of_ne_nil hr] at hq
    rcases hq with rfl | rfl <;> exact ⟨name, hn, rfl⟩
  refine wp_bind (wp_validateRelative hvalid (wp_bind ?_))
  refine wp_removeFileIfPresent (htrim.not_isDirectory h.journal hmem) (hC d h) fun d₁ hd₁ hnone => ?_
  have hw₁ : Within (fun q => q = p ∨ q = p.dropLast) d d₁ := hd₁.mono fun _ => .inl
  have h₁ : Live m T d₁ := h.of_compacted hp hw₁ fun q hq => hd₁.file hq
  have htrim₁ : Trimmed m d₁.files := by
    refine htrim.step hmem (fun q hq => hd₁.file hq) (fun q hq => .inl ?_) hvalid.1
    by_cases heq : q = p
    · rw [heq, hnone] at hq
      cases hq
    · rwa [hd₁.lookup q heq] at hq
  refine wp_copyFile ((h₁.journal.compacted p hp).2.2.trans hc) (fun d₂ hd₂ => hC d₂ ?_) fun d₂ hd₂ =>
    hQ d₂ (h₁.of_compacted hp hd₂.within hd₂.other) (htrim₁.step hmem hd₂.other hd₂.directory hvalid.1)
      ((hw₁.trans hd₂.within).mono hzone) (fun q hq => (hd₂.other q hq).trans (hd₁.file hq))
      (hd₂.file.trans hc.symm)
  exact h₁.of_compacted hp (hd₂.within.mono fun _ => .inr) fun q _ => hd₂.file q

theorem wp_restoreAllCompacted (h : Live m T d) (htrim : Trimmed m d.files)
    (hC : ∀ d', Live m T d' → C d') (hQ : ∀ d', Live m T d' → Within (Zone appendOnlyRoots) d d' →
      (∀ p, AppendOnly p → d'.files.file p = T.appendOnly p) → Q ⟨⟩ d') :
    wp sys (m.compactedAppendOnlyFiles.forM restoreCompacted) Q C E d := by
  refine wp_forM (fun l d' => (∀ p ∈ l, p ∈ m.compactedAppendOnlyFiles) ∧ Live m T d' ∧
    Trimmed m d'.files ∧ Within (Zone appendOnlyRoots) d d' ∧
    ∀ p ∈ m.compactedAppendOnlyFiles, p ∉ l → d'.files.file p = T.appendOnly p) ?_
    ⟨fun _ hp => hp, h, htrim, .refl _ d, fun p hp hnot => absurd hp hnot⟩ ?_
  · rintro p l d' ⟨hl, h', htrim', hw, hdone⟩
    refine wp_restoreCompacted h' htrim' (hl p (.head _)) hC fun d₁ h₁ htrim₁ hw₁ hother hp =>
      ⟨fun q hq => hl q (.tail _ hq), h₁, htrim₁, hw.trans hw₁, fun q hq hnot => ?_⟩
    by_cases heq : q = p
    · rw [heq, hp]
    · rw [hother q heq]
      exact hdone q hq fun hmem => (mem_cons.mp hmem).elim heq hnot
  · rintro d' ⟨-, h', htrim', hw, hdone⟩
    refine hQ d' h' hw fun p hp => ?_
    by_cases hmem : p ∈ m.appendOnlyFiles
    · by_cases hcompacted : p ∈ m.compactedAppendOnlyFiles
      · exact hdone p hcompacted not_mem_nil
      · exact h'.kept p hmem hcompacted
    · rw [htrim'.file p hp hmem]
      by_contra hne
      exact hmem ((h.journal.mem_appendOnly p hp).mpr (Ne.symm hne))

theorem TrustPlace.not_zone (h : TrustPlace q)
    (hnames : ∀ n ∈ names, n ∈ fileNames ++ treeNames ∧ n ∉ trustNames) : ¬ Zone names q := by
  rintro ⟨name, hn, hq⟩
  rcases h with rfl | hz | ⟨t, ht, rfl⟩
  · cases hq
  · obtain ⟨name', hn', hq'⟩ := hz
    cases hq.symm.trans hq'
    exact (hnames _ hn).2 hn'
  · cases hq
    exact notMem_of_temporary ht (hnames _ hn).1

theorem wp_restoreBackups (h : Live m T d) (hC : ∀ d', Live m T d' → C d')
    (hQ : ∀ d', Live m T d' → Matches T d'.files → Q () d') : wp sys (restoreBackups m) Q C E d := by
  refine wp_bind (wp_restoreRatchet h hC fun d₁ h₁ _ hratchet => ?_)
  refine wp_bind (wp_restoreSequence h₁ hC fun d₂ h₂ hw₂ hsequence => ?_)
  -- the rest does not come back to the ratchet and the sequence
  have hrest {d₃ : Disk} (h₃ : Live m T d₃) (hw₃ : Within TrustPlace d₂ d₃)
      (htrust : ∀ contents, T.trust = some contents → ∀ p, TrustPath p → d₃.files.file p = contents p) :
      wp sys (do
        appendOnlyRoots.forM fun name => removeNewFiles [name] m.appendOnlyFiles
        m.compactedAppendOnlyFiles.forM restoreCompacted) Q C E d₃ := by
    refine wp_bind (wp_removeAllNewFiles h₃ hC fun d₄ h₄ hw₄ htrim => ?_)
    refine wp_restoreAllCompacted h₄ htrim hC fun d₅ h₅ hw₅ happend => hQ d₅ h₅ ⟨?_, ?_, ?_, happend⟩
    · intro r hr
      have hz : Zone [ratchetDirectory] (ratchetDirectory :: r) := ⟨_, .head _, rfl⟩
      rw [hw₅.file (hz.not_of_disjoint _ (by decide)), hw₄.file (hz.not_of_disjoint _ (by decide)),
        hw₃.file fun hplace => hplace.not_zone (by decide) hz, hw₂.file ?_, hratchet r hr]
      intro hplace
      cases r with
      | nil => exact hr rfl
      | cons x r => exact absurd hplace.length_le (by simp)
    · have hz : Zone [nextSequenceFile] [nextSequenceFile] := ⟨_, .head _, rfl⟩
      rw [hw₅.file (hz.not_of_disjoint _ (by decide)), hw₄.file (hz.not_of_disjoint _ (by decide)),
        hw₃.file fun hplace => hplace.not_zone (by decide) hz, hsequence]
    · intro contents hcontents p hp
      rw [hw₅.file (hp.zone.not_of_disjoint _ (by decide)), hw₄.file (hp.zone.not_of_disjoint _ (by decide))]
      exact htrust contents hcontents p hp
  refine wp_bind (wp_when (fun hm => ?_) fun hm => ?_)
  · refine wp_restoreTrust h₂ hm hC fun d₃ contents h₃ hw₃ hT htrust => hrest h₃ hw₃ ?_
    intro contents' hT'
    cases hT.symm.trans hT'
    exact htrust
  · refine hrest h₂ (.refl _ d₂) fun contents hT => ?_
    have := h₂.journal.trust
    rw [if_neg hm, hT] at this
    cases this

end
end Kilogram.State
