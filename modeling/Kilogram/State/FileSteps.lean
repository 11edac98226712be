import Kilogram.State.Transaction

/-!
# Where the steps on files may stop

For each of the procedures on files: which entries it may have touched when the power goes, and what
it has done when it returns.
-/

namespace Kilogram.State
open Crash Crash.Prog
open List (append_cancel_left append_nil drop_left mem_cons mem_cons_self mem_filterMap mem_map not_mem_nil
  prefix_append prefix_refl)

namespace FileSystem
variable {fs : FileSystem} {p q : Path}

theorem lookup_insert_ite (fs : FileSystem) (p q : Path) (n : Node) :
    (fs.insert p n).lookup q = if q = p then some n else fs.lookup q := by
  split_ifs with h
  · rw [h, AList.lookup_insert]
  · exact AList.lookup_insert_ne h

theorem lookup_erase_ite (fs : FileSystem) (p q : Path) :
    (fs.erase p).lookup q = if q = p then none else fs.lookup q := by
  split_ifs with h
  · rw [h, AList.lookup_erase]
  · exact AList.lookup_erase_ne h

theorem mem_iff_lookup : p ∈ fs ↔ fs.lookup p ≠ none := by
  rw [← AList.lookup_isSome, Option.isSome_iff_ne_none]

theorem exists_iff : fs.Exists p ↔ ∃ q, p <+: q ∧ fs.lookup q ≠ none := by
  unfold Exists
  simp only [← AList.mem_keys, mem_iff_lookup]
  exact ⟨fun ⟨q, h, hp⟩ => ⟨q, hp, h⟩, fun ⟨q, hp, h⟩ => ⟨q, h, hp⟩⟩

theorem file_eq_some {c : Content} : fs.file p = some c ↔ fs.lookup p = some (.file c) := by
  unfold file
  constructor
  · intro h
    obtain ⟨n, hn, hc⟩ := Option.bind_eq_some_iff.mp h
    cases n with
    | directory => cases hc
    | file c' => rw [hn, Option.some.inj hc]
  · intro h
    rw [h]
    rfl

theorem lookup_ne_none_of_file {c : Content} (h : fs.file p = some c) : fs.lookup p ≠ none := by
  intro hn
  rw [file, hn] at h
  cases h

theorem exists_of_file {c : Content} (h : fs.file p = some c) : fs.Exists p :=
  exists_iff.mpr ⟨p, prefix_refl p, lookup_ne_none_of_file h⟩

theorem file_congr {fs fs' : FileSystem} (h : fs'.lookup p = fs.lookup p) : fs'.file p = fs.file p := by
  rw [file, file, h]

theorem exists_congr {fs fs' : FileSystem} (h : ∀ q, p <+: q → fs'.lookup q = fs.lookup q) :
    fs'.Exists p ↔ fs.Exists p := by
  rw [exists_iff, exists_iff]
  constructor
  · rintro ⟨q, hp, hq⟩
    exact ⟨q, hp, h q hp ▸ hq⟩
  · rintro ⟨q, hp, hq⟩
    exact ⟨q, hp, (h q hp).symm ▸ hq⟩

end FileSystem

open FileSystem

structure Within (S : Path → Prop) (d d' : Disk) : Prop where
  database : d'.database = d.database
  lookup : ∀ p, ¬ S p → d'.files.lookup p = d.files.lookup p

namespace Within
variable {S S' : Path → Prop} {d d' d'' : Disk}

theorem refl (S : Path → Prop) (d : Disk) : Within S d d := ⟨rfl, fun _ _ => rfl⟩

theorem trans (h : Within S d d') (h' : Within S d' d'') : Within S d d'' :=
  ⟨h'.database.trans h.database, fun p hp => (h'.lookup p hp).trans (h.lookup p hp)⟩

theorem mono (h : Within S d d') (hS : ∀ p, S p → S' p) : Within S' d d' :=
  ⟨h.database, fun p hp => h.lookup p fun hs => hp (hS p hs)⟩

theorem file (h : Within S d d') {p : Path} (hp : ¬ S p) : d'.files.file p = d.files.file p :=
  file_congr (h.lookup p hp)

theorem exists_iff (h : Within S d d') {p : Path} (hp : ∀ q, p <+: q → ¬ S q) :
    d'.files.Exists p ↔ d.files.Exists p :=
  exists_congr fun q hq => h.lookup q (hp q hq)

end Within

theorem within_insert {S : Path → Prop} {d : Disk} {p : Path} (n : Node) (hp : S p) :
    Within S d { d with files := d.files.insert p n } := by
  refine ⟨rfl, fun q hq => ?_⟩
  rw [lookup_insert_ite, if_neg]
  rintro rfl
  exact hq hp

theorem within_erase {S : Path → Prop} {d : Disk} {p : Path} (hp : S p) :
    Within S d { d with files := d.files.erase p } := by
  refine ⟨rfl, fun q hq => ?_⟩
  rw [lookup_erase_ite, if_neg]
  rintro rfl
  exact hq hp

section Steps
variable {sys : System} {C : Disk → Prop} {E : StateError → Disk → Prop} {d : Disk}

theorem wp_files {Q : FileSystem → Disk → Prop} (h : Q d.files d) : wp sys files Q C E d :=
  wp_bind (wp_disk (wp_pure h))

variable {Q : Unit → Disk → Prop} {p dir base : Path} {d d' : Disk} {fs : FileSystem}

theorem wp_change {f : FileSystem → FileSystem} (hC : C d)
    (h : Q () { d with files := f d.files }) : wp sys (change f) Q C E d := wp_act hC h

theorem wp_pathExists {Q : Bool → Disk → Prop} (h : Q (decide (d.files.Exists p)) d) :
    wp sys (pathExists p) Q C E d := wp_bind (wp_files (wp_pure h))

variable {c : Content} {Q : PUnit → Disk → Prop}

theorem wp_readFile {Q : Content → Disk → Prop}
    (hp : d.files.file p = some c) (h : Q c d) : wp sys (readFile p) Q C E d := by
  refine wp_bind (wp_files ?_)
  simp only [hp]
  exact wp_pure h

theorem wp_validateRelative (hp : ValidRelative p) (h : Q () d) : wp sys (validateRelative p) Q C E d :=
  wp_failIf (fun hn => absurd hp hn) fun _ => h

structure Created (p : Path) (d d' : Disk) : Prop where
  within : Within (· = p) d d'
  file : d'.files.file p = d.files.file p
  lookup : p ≠ [] → d'.files.lookup p ≠ none

theorem wp_createDirAll (hC : C d) (h : ∀ d', Created p d d' → Q () d') : wp sys (createDirAll p) Q C E d := by
  refine wp_bind (wp_files ?_)
  split_ifs with hp
  · refine wp_change hC (h _ ⟨within_insert _ rfl, ?_, fun _ => ?_⟩)
    · rw [FileSystem.file, FileSystem.file, hp.2, lookup_insert_ite, if_pos rfl]
      rfl
    · rw [lookup_insert_ite, if_pos rfl]
      simp
  · exact wp_pure (h d ⟨.refl _ d, rfl, fun hne hn => hp ⟨hne, hn⟩⟩)

theorem Created.keeps {q : Path} (h : Created p d d') (hq : q ≠ [])
    (hne : d.files.lookup q ≠ none) : d'.files.lookup q ≠ none := by
  by_cases hqp : q = p
  · rw [hqp]
    exact h.lookup (hqp ▸ hq)
  · rw [h.within.lookup q hqp]
    exact hne

theorem Created.file_eq (h : Created p d d') (q : Path) : d'.files.file q = d.files.file q := by
  by_cases hq : q = p
  · rw [hq, h.file]
  · exact h.within.file hq

def Pruned (sys : System) (dir : Path) (d d' : Disk) : Prop :=
  ∃ l₁ l₂, sys.listing d.files dir = l₁ ++ l₂ ∧ d'.database = d.database ∧
    ∀ p, d'.files.lookup p = if p ∈ l₁ then none else d.files.lookup p

theorem Pruned.within (h : Pruned sys dir d d') : Within (Below dir) d d' := by
  obtain ⟨l₁, l₂, hl, hdb, hlookup⟩ := h
  refine ⟨hdb, fun p hp => ?_⟩
  rw [hlookup, if_neg]
  intro hmem
  exact hp ((sys.mem_listing d.files dir p).mp (hl ▸ List.mem_append_left l₂ hmem)).1

theorem Pruned.lookup_or (h : Pruned sys dir d d') (p : Path) :
    d'.files.lookup p = d.files.lookup p ∨ d'.files.lookup p = none := by
  obtain ⟨l₁, l₂, hl, hdb, hlookup⟩ := h
  rw [hlookup]
  split_ifs
  · exact .inr rfl
  · exact .inl rfl

theorem Pruned.file_or (h : Pruned sys dir d d') (p : Path) :
    d'.files.file p = d.files.file p ∨ d'.files.file p = none := by
  rcases h.lookup_or p with hp | hp
  · exact .inl (file_congr hp)
  · exact .inr (by rw [FileSystem.file, hp]; rfl)

structure Cleared (dir : Path) (d d' : Disk) : Prop where
  within : Within (dir <+: ·) d d'
  lookup : ∀ p, dir <+: p → d'.files.lookup p = none

theorem Cleared.file (h : Cleared dir d d') (hp : dir <+: p) : d'.files.file p = none := by
  rw [FileSystem.file, h.lookup p hp]
  rfl

theorem Cleared.not_exists (h : Cleared dir d d') : ¬ d'.files.Exists dir := by
  rw [exists_iff]
  rintro ⟨p, hp, hne⟩
  exact hne (h.lookup p hp)

theorem lookup_eq_none_of_not_exists (h : ¬ fs.Exists dir) (hp : dir <+: p) : fs.lookup p = none := by
  by_contra hne
  exact h (exists_iff.mpr ⟨p, hp, hne⟩)

theorem file_eq_none_of_not_exists (h : ¬ fs.Exists dir) (hp : dir <+: p) : fs.file p = none := by
  rw [FileSystem.file, lookup_eq_none_of_not_exists h hp]
  rfl

theorem wp_removeTreeIfPresent (hfile : d.files.file dir = none)
    (hC : ∀ d', Pruned sys dir d d' → C d') (h : ∀ d', Cleared dir d d' → Q () d') :
    wp sys (removeTreeIfPresent dir) Q C E d := by
  refine wp_bind (wp_files ?_)
  split_ifs with hex
  · refine wp_bind (wp_failIf (absurd hfile) fun _ => wp_bind (wp_environment (wp_bind ?_)))
    -- the loop has erased the part of the listing that is not to come
    refine wp_forM (fun l d' => ∃ l₁, sys.listing d.files dir = l₁ ++ l ∧ d'.database = d.database ∧
      ∀ p, d'.files.lookup p = if p ∈ l₁ then none else d.files.lookup p) ?_
      ⟨[], rfl, rfl, fun p => by simp⟩ ?_
    · rintro p l d' ⟨l₁, hl, hdb, hlookup⟩
      refine wp_change (hC d' ⟨l₁, p :: l, hl, hdb, hlookup⟩)
        ⟨l₁ ++ [p], by rw [hl, List.append_assoc]; rfl, hdb, fun q => ?_⟩
      simp only [lookup_erase_ite, hlookup, List.mem_append, List.mem_singleton]
      by_cases hq : q = p <;> simp [hq]
    · rintro d' ⟨l₁, hl, hdb, hlookup⟩
      rw [append_nil] at hl
      refine wp_change (hC d' ⟨l₁, [], by rw [hl, append_nil], hdb, hlookup⟩) (h _ ⟨⟨hdb, ?_⟩, ?_⟩)
      · intro p hp
        have hne : p ≠ dir := fun heq => hp (heq ▸ prefix_refl dir)
        rw [lookup_erase_ite, if_neg hne, hlookup, if_neg]
        intro hmem
        exact hp ((sys.mem_listing d.files dir p).mp (hl ▸ hmem)).1.1
      · intro p hp
        rw [lookup_erase_ite]
        split_ifs with heq
        · rfl
        · rw [hlookup]
          split_ifs with hmem
          · rfl
          · by_contra hne
            exact hmem (hl ▸ (sys.mem_listing d.files dir p).mpr ⟨⟨hp, heq⟩, mem_iff_lookup.mpr hne⟩)
  · exact wp_pure (h d ⟨.refl _ d, fun p hp => lookup_eq_none_of_not_exists hex hp⟩)

theorem wp_removeFileIfPresent (hdir : ¬ d.files.IsDirectory p) (hC : C d)
    (h : ∀ d', Within (· = p) d d' → d'.files.lookup p = none → Q () d') :
    wp sys (removeFileIfPresent p) Q C E d := by
  refine wp_bind (wp_files ?_)
  split_ifs with hex
  · refine wp_bind (wp_failIf (fun hn => absurd ⟨hn, hex⟩ hdir) fun _ => ?_)
    refine wp_change hC (h _ (within_erase rfl) ?_)
    rw [lookup_erase_ite, if_pos rfl]
  · exact wp_pure (h d (.refl _ d) (lookup_eq_none_of_not_exists hex (prefix_refl p)))

def IsTemporary (dir p : Path) : Prop := ∃ t : String, t.toList.take 4 = ['.', 't', 'm', 'p'] ∧ p = dir ++ [t]

/-- While the file is being written, its directory may have got an entry and a temporary file. -/
structure Touched (p : Path) (d d' : Disk) : Prop where
  within : Within (fun q => q = p.dropLast ∨ IsTemporary p.dropLast q) d d'
  file : ∀ q, ¬ IsTemporary p.dropLast q → d'.files.file q = d.files.file q
  directory : ∀ q, d'.files.lookup q = some .directory → d.files.lookup q = some .directory ∨ q = p.dropLast

structure Wrote (p : Path) (c : Content) (d d' : Disk) : Prop where
  within : Within (fun q => q = p ∨ q = p.dropLast) d d'
  file : d'.files.file p = some c
  other : ∀ q, q ≠ p → d'.files.file q = d.files.file q
  keeps : ∀ q, q ≠ [] → d.files.lookup q ≠ none → d'.files.lookup q ≠ none
  directory : ∀ q, d'.files.lookup q = some .directory → d.files.lookup q = some .directory ∨ q = p.dropLast

theorem Touched.refl (p : Path) (d : Disk) : Touched p d d := ⟨.refl _ d, fun _ _ => rfl, fun _ => .inl⟩

theorem Created.directory (h : Created p d d') (q : Path)
    (hq : d'.files.lookup q = some .directory) : d.files.lookup q = some .directory ∨ q = p := by
  by_cases hqp : q = p
  · exact .inr hqp
  · exact .inl (h.within.lookup q hqp ▸ hq)

theorem Created.touched (h : Created p.dropLast d d') : Touched p d d' :=
  ⟨h.within.mono fun _ hq => .inl hq, fun q _ => h.file_eq q, h.directory⟩

theorem temporary_isTemporary (sys : System) (fs : FileSystem) (dir : Path) :
    IsTemporary dir (dir ++ [sys.temporary fs dir]) := ⟨_, sys.temporary_name fs dir, rfl⟩

theorem lookup_persist (sys : System) (fs : FileSystem) (dir p : Path) (c : Content) (q : Path) :
    (((fs.insert (dir ++ [sys.temporary fs dir]) (.file c)).erase
      (dir ++ [sys.temporary fs dir])).insert p (.file c)).lookup q =
      if q = p then some (.file c) else fs.lookup q := by
  rw [lookup_insert_ite, lookup_erase_ite, lookup_insert_ite]
  split_ifs with hp ht
  · rfl
  · rw [ht]
    by_contra hne
    exact sys.temporary_notMem fs dir (mem_iff_lookup.mpr (Ne.symm hne))
  · rfl

theorem wp_writeStagedFile (hp : p ≠ []) (hC : ∀ d', Touched p d d' → C d') (h : ∀ d', Wrote p c d d' → Q () d') :
    wp sys (writeStagedFile p c) Q C E d := by
  have hparent : p ≠ p.dropLast := by
    intro heq
    have := congrArg List.length heq
    have := List.length_pos_of_ne_nil hp
    rw [List.length_dropLast] at *
    omega
  refine wp_bind (wp_failIf (fun hn => absurd hn hp) fun _ => wp_bind ?_)
  refine wp_createDirAll (hC d (.refl p d)) fun d₁ hd₁ => ?_
  refine wp_bind (wp_bind (wp_files (wp_bind (wp_environment ?_))))
  set temporary := p.dropLast ++ [sys.temporary d₁.files p.dropLast] with htemporary
  refine wp_bind (wp_change (hC d₁ hd₁.touched) (wp_pure ?_))
  refine wp_change (hC _ ⟨?_, ?_, ?_⟩) (h _ ⟨?_, ?_, ?_, ?_, ?_⟩)
  · exact (hd₁.touched.within).trans (within_insert _ (.inr (temporary_isTemporary sys _ _)))
  · intro q hq
    rw [← hd₁.file_eq q]
    refine file_congr ?_
    rw [lookup_insert_ite, if_neg]
    rintro rfl
    exact hq (temporary_isTemporary sys _ _)
  · intro q hq
    rw [lookup_insert_ite] at hq
    split_ifs at hq
    · cases hq
    · exact hd₁.directory q hq
  · refine ⟨hd₁.within.database, fun q hq => ?_⟩
    rw [not_or] at hq
    rw [lookup_persist, if_neg hq.1]
    exact hd₁.within.lookup q hq.2
  · rw [FileSystem.file, lookup_persist, if_pos rfl]
    rfl
  · intro q hq
    rw [← hd₁.file_eq q]
    refine file_congr ?_
    rw [lookup_persist, if_neg hq]
  · intro q hq hne
    rw [lookup_persist]
    split_ifs
    · simp
    · exact hd₁.keeps hq hne
  · intro q hq
    rw [lookup_persist] at hq
    split_ifs at hq
    · cases hq
    · exact hd₁.directory q hq

/-- Only the directory of the file may have got an entry. -/
structure Opened (p : Path) (d d' : Disk) : Prop where
  within : Within (· = p.dropLast) d d'
  file : ∀ q, d'.files.file q = d.files.file q

theorem Opened.refl (p : Path) (d : Disk) : Opened p d d := ⟨.refl _ d, fun _ => rfl⟩

theorem wp_copyFile {source : Path} (hc : d.files.file source = some c) (hC : ∀ d', Opened p d d' → C d')
    (h : ∀ d', Wrote p c d d' → Q () d') : wp sys (copyFile source p) Q C E d := by
  refine wp_bind (wp_readFile hc (wp_bind ?_))
  refine wp_createDirAll (hC d (.refl p d)) fun d₁ hd₁ => ?_
  refine wp_change (hC d₁ ⟨hd₁.within, hd₁.file_eq⟩) (h _ ⟨⟨hd₁.within.database, fun q hq => ?_⟩, ?_, ?_, ?_, ?_⟩)
  · rw [not_or] at hq
    rw [lookup_insert_ite, if_neg hq.1]
    exact hd₁.within.lookup q hq.2
  · rw [FileSystem.file, lookup_insert_ite, if_pos rfl]
    rfl
  · intro q hq
    rw [← hd₁.file_eq q]
    refine file_congr ?_
    rw [lookup_insert_ite, if_neg hq]
  · intro q hq hne
    rw [lookup_insert_ite]
    split_ifs
    · simp
    · exact hd₁.keeps hq hne
  · intro q hq
    rw [lookup_insert_ite] at hq
    split_ifs at hq
    · cases hq
    · exact hd₁.directory q hq

theorem wp_writeMarker (hp : ¬ d.files.Exists p) (hC : C d)
    (h : Q () { d with files := d.files.insert p (.file marker) }) : wp sys (writeMarker p) Q C E d :=
  wp_bind (wp_files (wp_bind (wp_failIf (fun hex => absurd hex hp) fun _ => wp_change hC h)))

theorem wp_writeManifest {m : TransactionManifest} (hC : ∀ d', Within (IsTemporary activeDirectory) d d' → C d')
    (h : ∀ d', Within (· = manifestFile) d d' → d'.files.file manifestFile = some (.manifest m) →
      Q () d') : wp sys (writeManifest m) Q C E d := by
  refine wp_bind (wp_bind (wp_files (wp_bind (wp_environment ?_))))
  refine wp_bind (wp_change (hC d (.refl _ d)) (wp_pure ?_))
  refine wp_change (hC _ (within_insert _ (temporary_isTemporary sys _ _))) (h _ ⟨rfl, fun q hq => ?_⟩ ?_)
  · rw [lookup_persist, if_neg hq]
  · rw [FileSystem.file, lookup_persist, if_pos rfl]
    rfl

/-- Below the destination every content is the old one or that of the source. -/
structure CopiedPart (source target : Path) (d d' : Disk) : Prop where
  within : Within (target <+: ·) d d'
  file : ∀ r, d'.files.file (target ++ r) = d.files.file (target ++ r) ∨
    r ≠ [] ∧ d.files.file (source ++ r) ≠ none ∧ d'.files.file (target ++ r) = d.files.file (source ++ r)

structure Copied (source target : Path) (d d' : Disk) : Prop extends CopiedPart source target d d' where
  copied : ∀ r, r ≠ [] → d.files.file (source ++ r) ≠ none → d'.files.file (target ++ r) = d.files.file (source ++ r)
  exists_target : target ≠ [] → d'.files.lookup target ≠ none

theorem CopiedPart.step {source target r : Path} {d'' : Disk} (h : CopiedPart source target d d')
    (hwithin : Within (target <+: ·) d' d'')
    (hfile : ∀ q, d''.files.file q = d'.files.file q ∨ q = target ++ r ∧ r ≠ [] ∧
      d.files.file (source ++ r) ≠ none ∧ d''.files.file q = d.files.file (source ++ r)) :
    CopiedPart source target d d'' := by
  refine ⟨h.within.trans hwithin, fun q => ?_⟩
  rcases hfile (target ++ q) with heq | ⟨heq, hr, hne, hq⟩
  · rw [heq]
    exact h.file q
  · obtain rfl := append_cancel_left heq
    exact .inr ⟨hr, hne, hq⟩

theorem wp_copyTree {source target : Path}
    (hfile : d.files.file source = none) (hdisjoint : ∀ q, source <+: q → ¬ target <+: q)
    (hC : ∀ d', CopiedPart source target d d' → C d')
    (h : ∀ d', Copied source target d d' → Q () d') : wp sys (copyTree source target) Q C E d := by
  refine wp_bind (wp_files (wp_bind (wp_failIf (absurd hfile) fun _ => wp_bind ?_)))
  have hstart : CopiedPart source target d d := ⟨.refl _ d, fun _ => .inl rfl⟩
  refine wp_createDirAll (hC d hstart) fun d₁ hd₁ => wp_bind (wp_environment ?_)
  have hcreated {r : Path} {d' d'' : Disk} (h : Created (target ++ r) d' d'') :
      Within (target <+: ·) d' d'' := h.within.mono fun q hq => by
    rw [hq]
    exact prefix_append target r
  have hd₁' : CopiedPart source target d d₁ := by
    refine hstart.step (r := []) (hcreated (r := []) ?_) fun q => .inl (hd₁.file_eq q)
    rw [append_nil]
    exact hd₁
  refine wp_forM (fun l d' => CopiedPart source target d d' ∧ (target ≠ [] → d'.files.lookup target ≠ none) ∧
    (∀ p ∈ l, p ∈ sys.listing d.files source) ∧
    ∀ r, r ≠ [] → d.files.file (source ++ r) ≠ none → source ++ r ∉ l →
      d'.files.file (target ++ r) = d.files.file (source ++ r)) ?_ ⟨hd₁', hd₁.lookup, fun p hp => hp, ?_⟩ ?_
  · rintro p l d' ⟨hpart, hex, hl, hdone⟩
    obtain ⟨⟨⟨r, rfl⟩, hr⟩, -⟩ := (sys.mem_listing _ _ _).mp (hl p (.head _))
    have hrne : r ≠ [] := by
      rintro rfl
      exact hr (append_nil source)
    have hdrop : (source ++ r).drop source.length = r := drop_left
    have hparent : (target ++ r).dropLast = target ++ r.dropLast := List.dropLast_append_of_ne_nil hrne
    have hsub (q : Path) (hq : q = target ++ r ∨ q = target ++ r.dropLast) : target <+: q := by
      rcases hq with rfl | rfl <;> exact prefix_append target _
    rw [hdrop]
    cases hc : d.files.file (source ++ r) with
    | none =>
      -- a directory, or nothing any more
      have hcreate : wp sys (createDirAll (target ++ r)) (fun _ d'' =>
          CopiedPart source target d d'' ∧ (target ≠ [] → d''.files.lookup target ≠ none) ∧
          (∀ p ∈ l, p ∈ sys.listing d.files source) ∧
          ∀ r, r ≠ [] → d.files.file (source ++ r) ≠ none → source ++ r ∉ l →
            d''.files.file (target ++ r) = d.files.file (source ++ r)) C E d' := by
        refine wp_createDirAll (hC d' hpart) fun d'' hd'' => ⟨?_, fun hne => hd''.keeps hne (hex hne),
          fun p hp => hl p (.tail _ hp), fun q hq hne hmem => ?_⟩
        · exact hpart.step (r := r) (hcreated hd'') fun q => .inl (hd''.file_eq q)
        · rw [hd''.file_eq]
          refine hdone q hq hne fun hmem' => ?_
          rcases mem_cons.mp hmem' with heq | hmem'
          · rw [append_cancel_left heq, hc] at hne
            exact hne rfl
          · exact hmem hmem'
      cases hn : d.files.lookup (source ++ r) with
      | none => exact hcreate
      | some n =>
        cases n with
        | directory => exact hcreate
        | file c => simp [FileSystem.file, hn, Node.content] at hc
    | some c =>
      have hsource : d'.files.file (source ++ r) = some c := by
        rw [hpart.within.file (hdisjoint _ (prefix_append source r)), hc]
      rw [file_eq_some.mp hc]
      refine wp_copyFile hsource (fun d'' hd'' => hC d'' ?_) fun d'' hd'' => ⟨?_, fun hne =>
        hd''.keeps _ hne (hex hne), fun p hp => hl p (.tail _ hp), fun q hq hne hmem => ?_⟩
      · refine hpart.step (r := r) (hd''.within.mono fun q hq => ?_) fun q => .inl (hd''.file q)
        rw [hq, hparent]
        exact prefix_append target _
      · refine hpart.step (r := r) (hd''.within.mono fun q hq => ?_) fun q => ?_
        · rw [hparent] at hq
          exact hsub q hq
        · by_cases hq : q = target ++ r
          · exact .inr ⟨hq, hrne, by rw [hc]; simp, by rw [hq, hd''.file, hc]⟩
          · exact .inl (hd''.other q hq)
      · by_cases heq : q = r
        · rw [heq, hd''.file, hc]
        · rw [hd''.other _ fun h => heq (append_cancel_left h)]
          refine hdone q hq hne fun hmem' => ?_
          rcases mem_cons.mp hmem' with h | h
          · exact heq (append_cancel_left h)
          · exact hmem h
  · intro r hr hne hmem
    refine absurd ((sys.mem_listing _ _ _).mpr ⟨⟨prefix_append source r, ?_⟩, ?_⟩) hmem
    · simpa using hr
    · rw [mem_iff_lookup]
      intro hn
      rw [FileSystem.file, hn] at hne
      exact hne rfl
  · rintro d' ⟨hpart, hex, -, hdone⟩
    exact h d' ⟨hpart, fun r hr hne => hdone r hr hne not_mem_nil, hex⟩

theorem wp_forM_validate {l : List Path} (hl : ∀ p ∈ l, ValidRelative p)
    (h : Q ⟨⟩ d) : wp sys (l.forM validateRelative) Q C E d :=
  wp_forM_const (fun p hp => wp_validateRelative (hl p hp) rfl) h

theorem wp_forM_validate_or {l : List Path} (h : (∀ p ∈ l, ValidRelative p) → Q ⟨⟩ d) (hE : ∀ e, E e d) :
    wp sys (l.forM validateRelative) Q C E d := by
  refine wp_forM (fun l' d' => (∀ p ∈ l, p ∉ l' → ValidRelative p) ∧ d' = d) ?_ ⟨fun p hp hn => absurd hp hn, rfl⟩ ?_
  · rintro p l' _ ⟨hl', rfl⟩
    refine wp_failIf (fun _ => hE _) fun hp => ⟨fun q hq hn => ?_, rfl⟩
    by_cases heq : q = p
    · rw [heq]
      exact not_not.mp hp
    · exact hl' q hq fun hmem => (mem_cons.mp hmem).elim heq hn
  · rintro _ ⟨hl', rfl⟩
    exact h fun p hp => hl' p hp not_mem_nil

theorem mem_listing_of_file (h : fs.file p = some c) (hp : Below dir p) : p ∈ sys.listing fs dir :=
  (sys.mem_listing fs dir p).mpr ⟨hp, mem_iff_lookup.mpr (lookup_ne_none_of_file h)⟩

/-- The paths of the files below a directory. -/
def Lists (fs : FileSystem) (base dir : Path) (paths : List Path) : Prop :=
  ∀ q, q ∈ paths ↔ ∃ p, Below dir p ∧ fs.file p ≠ none ∧ q = p.drop base.length

theorem lists_listing (sys : System) (fs : FileSystem) (base dir : Path) : Lists fs base dir
      (((sys.listing fs dir).filter fun p => (fs.file p).isSome).map (·.drop base.length)) := by
  intro q
  simp only [mem_map, List.mem_filter, Option.isSome_iff_ne_none]
  constructor
  · rintro ⟨p, ⟨hp, hne⟩, rfl⟩
    exact ⟨p, ((sys.mem_listing _ _ _).mp hp).1, hne, rfl⟩
  · rintro ⟨p, hp, hne, rfl⟩
    obtain ⟨c, hc⟩ := Option.ne_none_iff_exists'.mp hne
    exact ⟨p, ⟨mem_listing_of_file hc hp, hne⟩, rfl⟩

theorem lists_of_not_exists (h : ¬ fs.Exists dir) : Lists fs base dir [] := by
  intro q
  simp only [not_mem_nil, false_iff]
  rintro ⟨p, hp, hne, -⟩
  exact hne (file_eq_none_of_not_exists h hp.1)

theorem wp_collectRelativeFiles {Q : List Path → Disk → Prop} (hfile : d.files.file dir = none)
    (hvalid : ∀ p, Below dir p → d.files.file p ≠ none → ValidRelative (p.drop base.length))
    (h : ∀ paths, Lists d.files base dir paths → Q paths d) :
    wp sys (collectRelativeFiles base dir) Q C E d := by
  refine wp_bind (wp_files ?_)
  split_ifs with hex
  · refine wp_bind (wp_failIf (absurd hfile) fun _ => wp_bind (wp_environment (wp_bind ?_)))
    refine wp_forM_validate ?_ (wp_pure (h _ (lists_listing sys d.files base dir)))
    intro q hq
    obtain ⟨p, hp, hne, rfl⟩ := (lists_listing sys d.files base dir q).mp hq
    exact hvalid p hp hne
  · exact wp_pure (h [] (lists_of_not_exists hex))

/-- Contents collected from a list that says the same of a path wherever it names it. -/
theorem lookup_collected {l : List (Sigma fun _ : Path => Content)} {f : Path → Option Content}
    (hl : ∀ q c, ⟨q, c⟩ ∈ l ↔ f q = some c) (q : Path) :
    (l.foldl (fun (r : Contents) x => r.insert x.1 x.2) ∅).lookup q = f q := by
  have hfold (l : List (Sigma fun _ : Path => Content)) (contents : Contents) (c : Content)
      (h : (l.foldl (fun (r : Contents) x => r.insert x.1 x.2) contents).lookup q = some c) :
      ⟨q, c⟩ ∈ l ∨ contents.lookup q = some c := by
    induction l generalizing contents with
    | nil => exact .inr h
    | cons x l ih =>
      rcases ih _ h with hmem | hlookup
      · exact .inl (List.mem_cons_of_mem x hmem)
      · by_cases hq : q = x.1
        · subst hq
          rw [AList.lookup_insert] at hlookup
          cases hlookup
          exact .inl (.head _)
        · rw [AList.lookup_insert_ne hq] at hlookup
          exact .inr hlookup
  have hkeys (l : List (Sigma fun _ : Path => Content)) (contents : Contents) (h : q ∈ contents ∨ ∃ c, ⟨q, c⟩ ∈ l) :
      q ∈ l.foldl (fun (r : Contents) x => r.insert x.1 x.2) contents := by
    induction l generalizing contents with
    | nil => simpa using h
    | cons x l ih =>
      refine ih _ ?_
      rcases h with h | ⟨c, hc⟩
      · exact .inl ((AList.mem_insert _).mpr (.inr h))
      · rcases mem_cons.mp hc with rfl | hc
        · exact .inl ((AList.mem_insert _).mpr (.inl rfl))
        · exact .inr ⟨c, hc⟩
  cases hf : f q with
  | some c =>
    obtain ⟨c', hc'⟩ := Option.isSome_iff_exists.mp (AList.lookup_isSome.mpr (hkeys l ∅ (.inr ⟨c, (hl q c).mpr hf⟩)))
    rcases hfold l ∅ c' hc' with hmem | hempty
    · rw [hc', ← hf, (hl q c').mp hmem]
    · cases hempty
  | none =>
    by_contra hne
    obtain ⟨c, hc⟩ := Option.ne_none_iff_exists'.mp hne
    rcases hfold l ∅ c hc with hmem | hempty
    · rw [(hl q c).mp hmem] at hf
      cases hf
    · cases hempty

/-- The contents below a directory, by their paths relative to `base`. -/
def Reads (fs : FileSystem) (base dir : Path) (contents : Contents) : Prop :=
  ∀ q, contents.lookup q = if Below dir (base ++ q) then fs.file (base ++ q) else none

theorem reads_listing (sys : System) (fs : FileSystem) (hbase : base <+: dir) :
    Reads fs base dir (((sys.listing fs dir).filterMap fun p =>
      (fs.file p).map fun c => (⟨p.drop base.length, c⟩ : Sigma fun _ : Path => Content)).foldl
        (fun contents x => contents.insert x.1 x.2) ∅) := by
  refine fun q => lookup_collected (f := fun q => if Below dir (base ++ q) then fs.file (base ++ q) else none)
    (fun q c => ?_) q
  simp only [mem_filterMap, Option.map_eq_some_iff]
  constructor
  · rintro ⟨p, hp, c', hc', heq⟩
    have hbelow := ((sys.mem_listing _ _ _).mp hp).1
    obtain ⟨r, rfl⟩ := hbase.trans hbelow.1
    rw [drop_left] at heq
    cases heq
    rw [if_pos hbelow, hc']
  · intro h
    split_ifs at h with hbelow
    exact ⟨base ++ q, mem_listing_of_file h hbelow, c, h, by rw [drop_left]⟩

theorem reads_of_not_exists (h : ¬ fs.Exists dir) : Reads fs base dir ∅ := by
  intro q
  split_ifs with hq
  · rw [file_eq_none_of_not_exists h hq.1]
    rfl
  · rfl

theorem wp_collectTreeContents {Q : Contents → Disk → Prop} (hbase : base <+: dir) (hfile : d.files.file dir = none)
    (hvalid : ∀ p, Below dir p → d.files.file p ≠ none → ValidRelative (p.drop base.length))
    (h : ∀ contents, Reads d.files base dir contents → Q contents d) :
    wp sys (collectTreeContents dir base) Q C E d := by
  refine wp_bind (wp_files ?_)
  split_ifs with hex
  · refine wp_bind (wp_failIf (absurd hfile) fun _ => wp_bind (wp_environment (wp_bind ?_)))
    refine wp_forM_validate ?_ (wp_pure (h _ (reads_listing sys d.files hbase)))
    simp only [mem_map, mem_filterMap, Option.map_eq_some_iff]
    rintro _ ⟨_, ⟨p, hp, c, hc, rfl⟩, rfl⟩
    exact hvalid p ((sys.mem_listing _ _ _).mp hp).1 (by rw [hc]; simp)
  · exact wp_pure (h ∅ (reads_of_not_exists hex))

theorem wp_collectTreeContents_or {Q : Contents → Disk → Prop} (hbase : base <+: dir)
    (h : ∀ contents, d.files.file dir = none ∨ ¬ d.files.Exists dir → Reads d.files base dir contents →
      (∀ p, Below dir p → d.files.file p ≠ none → ValidRelative (p.drop base.length)) → Q contents d)
    (hE : ∀ e, E e d) : wp sys (collectTreeContents dir base) Q C E d := by
  refine wp_bind (wp_files ?_)
  split_ifs with hex
  · refine wp_bind (wp_failIf (fun _ => hE _) fun hfile => wp_bind (wp_environment (wp_bind ?_)))
    refine wp_forM_validate_or (fun hl => wp_pure (h _ (.inl (not_not.mp hfile))
      (reads_listing sys d.files hbase) fun p hp hne => hl _ ?_)) hE
    obtain ⟨c, hc⟩ := Option.ne_none_iff_exists'.mp hne
    simp only [mem_map, mem_filterMap, Option.map_eq_some_iff]
    exact ⟨_, ⟨p, mem_listing_of_file hc hp, c, hc, rfl⟩, rfl⟩
  · refine wp_pure (h ∅ (.inr hex) (reads_of_not_exists hex) fun p hp hne => ?_)
    exact absurd (file_eq_none_of_not_exists hex hp.1) hne

/-- Below the directory, files that are not in the baseline may be gone, and directories. -/
structure RemovedPart (dir : Path) (baseline : List Path) (d d' : Disk) : Prop where
  within : Within (Below dir) d d'
  lookup : ∀ q, d'.files.lookup q = d.files.lookup q ∨ d'.files.lookup q = none
  file : ∀ q, d'.files.file q = d.files.file q ∨ q ∉ baseline ∧ d'.files.file q = none

/-- New files are gone, and directories without files. -/
structure RemovedNew (dir : Path) (baseline : List Path) (d d' : Disk) : Prop
    extends RemovedPart dir baseline d d' where
  removed : ∀ q, Below dir q → q ∉ baseline → d'.files.file q = none
  directory : ∀ q, Below dir q → d'.files.lookup q = some .directory → ∃ r, Below q r ∧ d'.files.file r ≠ none

theorem RemovedPart.refl (dir : Path) (baseline : List Path) (d : Disk) : RemovedPart dir baseline d d :=
  ⟨.refl _ d, fun _ => .inl rfl, fun _ => .inl rfl⟩

theorem file_erase_ite (fs : FileSystem) (p q : Path) :
    FileSystem.file (fs.erase p) q = if q = p then none else fs.file q := by
  rw [FileSystem.file, lookup_erase_ite]
  split_ifs <;> rfl

theorem RemovedPart.erase {baseline : List Path} (h : RemovedPart dir baseline d d') (hp : Below dir p)
    (hnew : p ∉ baseline ∨ d'.files.file p = none) :
    RemovedPart dir baseline d { d' with files := d'.files.erase p } := by
  refine ⟨h.within.trans (within_erase hp), fun q => ?_, fun q => ?_⟩
  · rw [lookup_erase_ite]
    split_ifs
    · exact .inr rfl
    · exact h.lookup q
  · rw [file_erase_ite]
    split_ifs with hq
    · rw [hq]
      rcases hnew with hnew | hnew
      · exact .inr ⟨hnew, rfl⟩
      · rcases h.file p with heq | hgone
        · exact .inl (by rw [← heq, hnew])
        · exact .inr ⟨hgone.1, rfl⟩
    · exact h.file q

/-- The first loop: the files of the listing that are new go. -/
theorem wp_removeListed {baseline : List Path} {Q : PUnit → Disk → Prop}
    (hvalid : ∀ p, Below dir p → d.files.file p ≠ none → ValidRelative p)
    (hC : ∀ d', RemovedPart dir baseline d d' → C d')
    (h : ∀ d', RemovedPart dir baseline d d' → (∀ q, Below dir q → q ∉ baseline → d'.files.file q = none) → Q ⟨⟩ d') :
    wp sys ((sys.listing d.files dir).forM fun p => do
      if d.files.file p ≠ none then
        validateRelative p
        if p ∉ baseline then change (·.erase p)) Q C E d := by
  refine wp_forM (fun l d' => (∀ p ∈ l, p ∈ sys.listing d.files dir) ∧ RemovedPart dir baseline d d' ∧
    ∀ q, Below dir q → q ∉ baseline → q ∉ l → d'.files.file q = none) ?_
    ⟨fun p hp => hp, .refl _ _ d, ?_⟩ ?_
  · rintro p l d' ⟨hl, hpart, hdone⟩
    have hp : Below dir p := ((sys.mem_listing _ _ _).mp (hl p (.head _))).1
    have hl' (q : Path) (hq : q ∈ l) : q ∈ sys.listing d.files dir := hl q (List.mem_cons_of_mem p hq)
    have hstill (hskip : p ∈ baseline ∨ d'.files.file p = none) : ∀ q, Below dir q → q ∉ baseline →
        q ∉ l → d'.files.file q = none := by
      intro q hq hnew hmem
      by_cases hqp : q = p
      · rw [hqp]
        exact hskip.resolve_left fun hbase => hnew (hqp ▸ hbase)
      · exact hdone q hq hnew fun hmem' => (mem_cons.mp hmem').elim hqp hmem
    by_cases hne : d.files.file p ≠ none
    · rw [if_pos hne]
      refine wp_bind (wp_validateRelative (hvalid p hp hne) ?_)
      by_cases hbase : p ∉ baseline
      · rw [if_pos hbase]
        refine wp_change (hC d' hpart) ⟨hl', hpart.erase hp (.inl hbase), fun q hq hnew hmem => ?_⟩
        rw [file_erase_ite]
        split_ifs with hqp
        · rfl
        · exact hdone q hq hnew fun hmem' => (mem_cons.mp hmem').elim hqp hmem
      · rw [if_neg hbase]
        exact wp_pure ⟨hl', hpart, hstill (.inl (not_not.mp hbase))⟩
    · rw [if_neg hne]
      refine wp_pure ⟨hl', hpart, hstill (.inr ?_)⟩
      rcases hpart.file p with heq | hgone
      · rw [heq, not_not.mp hne]
      · exact hgone.2
  · intro q hq _ hmem
    by_contra hne
    obtain ⟨c, hc⟩ := Option.ne_none_iff_exists'.mp hne
    exact hmem (mem_listing_of_file hc hq)
  · rintro d' ⟨-, hpart, hdone⟩
    exact h d' hpart fun q hq hnew => hdone q hq hnew not_mem_nil

/-- The second loop: only entries of directories go, and those that stay have a file below. -/
theorem wp_removeEmptied {d₁ : Disk} {baseline : List Path} {Q : PUnit → Disk → Prop}
    (hpart₁ : RemovedPart dir baseline d d₁) (hC : ∀ d', RemovedPart dir baseline d d' → C d')
    (h : ∀ d', RemovedPart dir baseline d d' → (∀ q, d'.files.file q = d₁.files.file q) →
      (∀ q, Below dir q → d'.files.lookup q = some .directory → ∃ r, Below q r ∧ d'.files.file r ≠ none) →
      Q ⟨⟩ d') :
    wp sys ((sys.listing d.files dir).forM fun p => do
      let now ← files
      if d.files.lookup p = some .directory ∧ ∀ q ∈ now.keys, Below p q → now.file q = none then
        change (·.erase p)) Q C E d₁ := by
  refine wp_forM (fun l d' => (∀ p ∈ l, p ∈ sys.listing d.files dir) ∧
    RemovedPart dir baseline d d' ∧ (∀ q, d'.files.file q = d₁.files.file q) ∧
    ∀ q, Below dir q → q ∉ l → d'.files.lookup q = some .directory → ∃ r, Below q r ∧ d'.files.file r ≠ none) ?_
    ⟨fun p hp => hp, hpart₁, fun _ => rfl, ?_⟩ ?_
  · rintro p l d' ⟨hl, hpart, hsame, hdirs⟩
    have hp : Below dir p := ((sys.mem_listing _ _ _).mp (hl p (.head _))).1
    have hl' (q : Path) (hq : q ∈ l) : q ∈ sys.listing d.files dir := hl q (List.mem_cons_of_mem p hq)
    refine wp_bind (wp_files ?_)
    split_ifs with hdirectory
    · have hnone : d'.files.file p = none := by
        rcases hpart.file p with heq | hgone
        · rw [heq, FileSystem.file, hdirectory.1]
          rfl
        · exact hgone.2
      have hfiles (q : Path) : FileSystem.file (d'.files.erase p) q = d'.files.file q := by
        rw [file_erase_ite]
        split_ifs with hq
        · rw [hq, hnone]
        · rfl
      refine wp_change (hC d' hpart) ⟨hl', hpart.erase hp (.inr hnone),
        fun q => (hfiles q).trans (hsame q), fun q hq hmem hlookup => ?_⟩
      by_cases hqp : q = p
      · rw [hqp, lookup_erase_ite, if_pos rfl] at hlookup
        cases hlookup
      · rw [lookup_erase_ite, if_neg hqp] at hlookup
        obtain ⟨r, hr, hne⟩ := hdirs q hq (fun h => (mem_cons.mp h).elim hqp hmem) hlookup
        exact ⟨r, hr, by rw [hfiles]; exact hne⟩
    · refine wp_pure ⟨hl', hpart, hsame, fun q hq hmem hlookup => ?_⟩
      by_cases hqp : q = p
      · subst hqp
        have hold : d.files.lookup q = some .directory := by
          rcases hpart.lookup q with heq | hnone
          · rw [← heq, hlookup]
          · rw [hnone] at hlookup
            cases hlookup
        by_contra hno
        refine hdirectory ⟨hold, fun r _ hr => ?_⟩
        by_contra hne
        exact hno ⟨r, hr, hne⟩
      · exact hdirs q hq (fun h => (mem_cons.mp h).elim hqp hmem) hlookup
  · intro q hq hmem hlookup
    refine absurd ((sys.mem_listing _ _ _).mpr ⟨hq, mem_iff_lookup.mpr ?_⟩) hmem
    rcases hpart₁.lookup q with heq | hnone
    · rw [← heq, hlookup]
      simp
    · rw [hnone] at hlookup
      cases hlookup
  · rintro d' ⟨-, hpart, hsame, hdirs⟩
    exact h d' hpart hsame fun q hq => hdirs q hq not_mem_nil

theorem wp_removeNewFiles {baseline : List Path} (hfile : d.files.file dir = none)
    (hvalid : ∀ p, Below dir p → d.files.file p ≠ none → ValidRelative p)
    (hC : ∀ d', RemovedPart dir baseline d d' → C d') (h : ∀ d', RemovedNew dir baseline d d' → Q () d') :
    wp sys (removeNewFiles dir baseline) Q C E d := by
  refine wp_bind (wp_files ?_)
  split_ifs with hex
  · refine wp_bind (wp_failIf (absurd hfile) fun _ => wp_bind (wp_environment (wp_bind ?_)))
    refine wp_removeListed hvalid hC fun d₁ hpart₁ hremoved₁ => ?_
    exact wp_removeEmptied hpart₁ hC fun d' hpart hsame hdirs =>
      h d' ⟨hpart, fun q hq hnew => (hsame q).trans (hremoved₁ q hq hnew), hdirs⟩
  · refine wp_pure (h d ⟨.refl _ _ d, fun q hq _ => ?_, fun q hq hlookup => ?_⟩)
    · exact file_eq_none_of_not_exists hex hq.1
    · rw [lookup_eq_none_of_not_exists hex hq.1] at hlookup
      cases hlookup

/-- Some of the contents stand at their places; the rest is as it was, but for directories and
temporary files. -/
structure FilledPart (place : Path → Path) (contents : Contents) (d d' : Disk) : Prop where
  within : Within (fun q => ∃ x ∈ contents, q = place x ∨ q = (place x).dropLast ∨
    IsTemporary (place x).dropLast q) d d'
  file : ∀ q, (∀ x ∈ contents, ¬ IsTemporary (place x).dropLast q) → d'.files.file q = d.files.file q ∨
      ∃ x c, contents.lookup x = some c ∧ q = place x ∧ d'.files.file q = some c
  directory : ∀ q, d'.files.lookup q = some .directory →
    d.files.lookup q = some .directory ∨ ∃ x ∈ contents, q = (place x).dropLast

structure Filled (place : Path → Path) (contents : Contents) (d d' : Disk) : Prop where
  within : Within (fun q => ∃ x ∈ contents, q = place x ∨ q = (place x).dropLast) d d'
  written : ∀ x c, contents.lookup x = some c → d'.files.file (place x) = some c
  other : ∀ q, (∀ x ∈ contents, q ≠ place x) → d'.files.file q = d.files.file q
  keeps : ∀ q, q ≠ [] → d.files.lookup q ≠ none → d'.files.lookup q ≠ none
  directory : ∀ q, d'.files.lookup q = some .directory →
    d.files.lookup q = some .directory ∨ ∃ x ∈ contents, q = (place x).dropLast

theorem mem_of_entries {contents : Contents} {x : Sigma fun _ : Path => Content}
    (h : x ∈ contents.entries) : contents.lookup x.1 = some x.2 := AList.mem_lookup_iff.mpr h

theorem wp_writeAll (place : Path → Path) {contents : Contents}
    {f : (Sigma fun _ : Path => Content) → M PUnit}
    (hf : ∀ x ∈ contents.entries, ∀ (d : Disk) (Q : PUnit → Disk → Prop),
      wp sys (writeStagedFile (place x.1) x.2) Q C E d → wp sys (f x) Q C E d)
    (hne : ∀ x ∈ contents, place x ≠ [])
    (hinj : ∀ x ∈ contents, ∀ y ∈ contents, place x = place y → x = y)
    (hC : ∀ d', FilledPart place contents d d' → C d')
    (h : ∀ d', Filled place contents d d' → Q ⟨⟩ d') : wp sys (contents.entries.forM f) Q C E d := by
  have hmem {x : Path} {c : Content} (hx : contents.lookup x = some c) : x ∈ contents :=
    AList.lookup_isSome.mp (by rw [hx]; rfl)
  refine wp_forM (fun l d' => (∀ x ∈ l, x ∈ contents.entries) ∧
    Within (fun q => ∃ x ∈ contents, q = place x ∨ q = (place x).dropLast) d d' ∧
    (∀ x c, contents.lookup x = some c → ⟨x, c⟩ ∉ l → d'.files.file (place x) = some c) ∧
    (∀ q, d'.files.file q = d.files.file q ∨
      ∃ x c, contents.lookup x = some c ∧ q = place x ∧ d'.files.file q = some c) ∧
    (∀ q, q ≠ [] → d.files.lookup q ≠ none → d'.files.lookup q ≠ none) ∧
    ∀ q, d'.files.lookup q = some .directory →
      d.files.lookup q = some .directory ∨ ∃ x ∈ contents, q = (place x).dropLast) ?_ ?_ ?_
  · rintro ⟨x, c⟩ l d' ⟨hl, hw, hwritten, hfile, hkeeps, hdir⟩
    have hx := mem_of_entries (hl _ (.head _))
    refine hf _ (hl _ (.head _)) d' _ (wp_writeStagedFile (hne x (hmem hx)) (fun d₁ hd₁ => ?_)
      fun d₁ hd₁ => ⟨fun y hy => hl y (.tail _ hy), ?_, ?_, ?_, ?_, ?_⟩)
    · refine hC d₁ ⟨(hw.mono ?_).trans (hd₁.within.mono fun q hq => ⟨x, hmem hx, .inr hq⟩), ?_, ?_⟩
      · rintro q ⟨y, hy, hq⟩
        exact ⟨y, hy, hq.imp_right .inl⟩
      · intro q hq
        rw [hd₁.file q (hq x (hmem hx))]
        exact hfile q
      · intro q hq
        exact (hd₁.directory q hq).elim (hdir q) fun heq => .inr ⟨x, hmem hx, heq⟩
    · exact hw.trans (hd₁.within.mono fun q hq => ⟨x, hmem hx, hq⟩)
    · intro y c' hy hnot
      by_cases heq : y = x
      · subst heq
        obtain rfl : c = c' := Option.some.inj (hx.symm.trans hy)
        exact hd₁.file
      · rw [hd₁.other _ fun h => heq (hinj y (hmem hy) x (hmem hx) h)]
        refine hwritten y c' hy fun hmem' => ?_
        rcases mem_cons.mp hmem' with h | h
        · exact heq (congrArg Sigma.fst h)
        · exact hnot h
    · intro q
      by_cases hq : q = place x
      · exact .inr ⟨x, c, hx, hq, by rw [hq]; exact hd₁.file⟩
      · rw [hd₁.other q hq]
        exact hfile q
    · exact fun q hq hne' => hd₁.keeps q hq (hkeeps q hq hne')
    · intro q hq
      exact (hd₁.directory q hq).elim (hdir q) fun heq => .inr ⟨x, hmem hx, heq⟩
  · exact ⟨fun x hx => hx, .refl _ d, fun x c hx hnot => absurd (AList.mem_lookup_iff.mp hx) hnot,
      fun _ => .inl rfl, fun _ _ h => h, fun _ => .inl⟩
  · rintro d' ⟨-, hw, hwritten, hfile, hkeeps, hdir⟩
    refine h d' ⟨hw, fun x c hx => hwritten x c hx not_mem_nil, fun q hq => ?_, hkeeps, hdir⟩
    rcases hfile q with heq | ⟨x, c, hx, hqx, -⟩
    · exact heq
    · exact absurd hqx (hq x (hmem hx))

end Steps
end Kilogram.State
