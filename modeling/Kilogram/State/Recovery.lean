import Kilogram.State.Rollback

/-!
# Recovery

Taking the lock removes the journal of a transaction that has ended, and rolls back one that has not.
-/

namespace Kilogram.State
open Crash Crash.Prog FileSystem

/-- Of the journal the prepared marker goes before the markers that end a transaction. -/
def System.Safe (sys : System) : Prop := ∀ fs l₁ l₂ p q, sys.listing fs activeDirectory = l₁ ++ p :: l₂ →
    committedMarker <+: p ∨ rolledBackMarker <+: p → preparedMarker <+: q → q ∉ l₂

/-- A statement on what stands outside the journal. -/
def Outside (P : FileSystem → Prop) : Prop :=
  ∀ fs fs' : FileSystem, (∀ p, ¬ activeDirectory <+: p → fs'.lookup p = fs.lookup p) → P fs → P fs'

/-- No transaction is on its way, and the files are as `P` says. -/
structure Settled (P : FileSystem → Prop) (d : Disk) : Prop where
  holds : P d.files
  directory : d.files.file activeDirectory = none
  ended : d.files.Exists preparedMarker → d.files.Exists committedMarker ∨ d.files.Exists rolledBackMarker

theorem outside_matches (T : Target) : Outside (Matches T) := by
  intro fs fs' heq h
  have hfile {p : Path} (hp : ¬ Zone [transactionDirectory] p) : fs'.file p = fs.file p :=
    file_congr (heq p fun hactive => hp (zone_of_active hactive))
  have hz (name : String) (r : Path) (hn : name ≠ transactionDirectory) :
      ¬ Zone [transactionDirectory] (name :: r) := by
    rintro ⟨n, hmem, hhead⟩
    exact hn ((Option.some.inj hhead).trans (List.mem_singleton.mp hmem))
  refine ⟨fun r hr => ?_, ?_, fun contents hcontents p hp => ?_, fun p hp => ?_⟩
  · rw [hfile (hz _ _ (by decide))]
    exact h.ratchet r hr
  · rw [hfile (hz _ _ (by decide))]
    exact h.sequence
  · rw [hfile (hp.zone.not_of_disjoint _ (by decide))]
    exact h.trust contents hcontents p hp
  · rw [hfile (hp.zone.not_of_disjoint _ (by decide))]
    exact h.appendOnly p hp

section
variable {sys : System} {C : Disk → Prop} {E : StateError → Disk → Prop} {P : FileSystem → Prop}
  {m : TransactionManifest} {T : Target} {d : Disk}

/-- A removal that stops on the way. -/
theorem Settled.of_pruned {d' : Disk} (hsafe : sys.Safe) (hP : Outside P) (h : Settled P d)
    (hd : Pruned sys activeDirectory d d') : Settled P d' := by
  refine ⟨hP _ _ (fun p hp => hd.within.lookup p fun hb => hp hb.1) h.holds, ?_, fun hprepared => ?_⟩
  · exact (hd.file_or _).elim (fun heq => heq.trans h.directory) id
  · obtain ⟨l₁, l₂, hl, -, hlookup⟩ := hd
    obtain ⟨q, hq, hne⟩ := exists_iff.mp hprepared
    rw [hlookup] at hne
    have hq₁ : q ∉ l₁ := fun hmem => hne (if_pos hmem)
    rw [if_neg hq₁] at hne
    have hq₂ : q ∈ l₂ := by
      have hmem : q ∈ sys.listing d.files activeDirectory :=
        (sys.mem_listing _ _ _).mpr ⟨⟨(by decide : activeDirectory <+: preparedMarker).trans hq, ?_⟩,
          mem_iff_lookup.mpr hne⟩
      · exact (List.mem_append.mp (hl ▸ hmem)).resolve_left hq₁
      · rintro rfl
        exact absurd hq (by decide)
    -- a marker among the removed entries would have been removed before the prepared one
    have hstays {marker : Path} (hmarker : marker = committedMarker ∨ marker = rolledBackMarker)
        (hex : d.files.Exists marker) : d'.files.Exists marker := by
      obtain ⟨p, hp, hpne⟩ := exists_iff.mp hex
      refine exists_iff.mpr ⟨p, hp, ?_⟩
      rw [hlookup, if_neg fun hmem => ?_]
      · exact hpne
      · obtain ⟨a, b, rfl⟩ := List.append_of_mem hmem
        refine hsafe d.files a (b ++ l₂) p q (by rw [hl]; simp) ?_ hq (List.mem_append_right _ hq₂)
        rcases hmarker with rfl | rfl
        · exact .inl hp
        · exact .inr hp
    exact (h.ended (exists_iff.mpr ⟨q, hq, hne⟩)).imp (hstays (.inl rfl)) (hstays (.inr rfl))

variable {Q : Unit → Disk → Prop}

theorem wp_removeJournal (hsafe : sys.Safe) (hP : Outside P) (h : Settled P d) (hC : ∀ d', Settled P d' → C d')
    (hQ : ∀ d', P d'.files → ¬ d'.files.Exists activeDirectory → Q () d') :
    wp sys (removeTreeIfPresent activeDirectory) Q C E d :=
  wp_removeTreeIfPresent h.directory (fun d' hd' => hC d' (h.of_pruned hsafe hP hd')) fun d' hd' =>
    hQ d' (hP _ _ hd'.within.lookup h.holds) hd'.not_exists

theorem Settled.of_marker {marker : Path} (hP : Outside P) (h : P d.files)
    (hdir : d.files.file activeDirectory = none)
    (hmarker : marker = committedMarker ∨ marker = rolledBackMarker) :
    Settled P { d with files := d.files.insert marker (.file State.marker) } := by
  have hactive : Below activeDirectory marker := by
    rcases hmarker with rfl | rfl <;> decide
  refine ⟨hP _ _ (fun p hp => ?_) h, ?_, fun _ => ?_⟩
  · rw [lookup_insert_ite, if_neg]
    rintro rfl
    exact hp hactive.1
  · rw [← hdir]
    refine file_congr ?_
    rw [lookup_insert_ite, if_neg (Ne.symm hactive.2)]
  · have hex : FileSystem.Exists (d.files.insert marker (.file State.marker)) marker :=
      exists_iff.mpr ⟨marker, List.prefix_refl _, by rw [lookup_insert_ite, if_pos rfl]; simp⟩
    rcases hmarker with rfl | rfl
    · exact .inl hex
    · exact .inr hex

theorem wp_rollbackActive (hsafe : sys.Safe) (h : Live m T d) (hC : ∀ d', Live m T d' ∨ Settled (Matches T) d' → C d')
    (hQ : ∀ d', Matches T d'.files → ¬ d'.files.Exists activeDirectory → Q () d') :
    wp sys rollbackActive Q C E d := by
  refine wp_bind (wp_readManifest h.journal (wp_bind (wp_checkRollback h (wp_bind ?_))))
  refine wp_restoreBackups h (fun d' h' => hC d' (.inl h')) fun d₁ h₁ hmatches => wp_bind ?_
  refine wp_writeMarker h₁.journal.rolledBack (hC d₁ (.inl h₁)) ?_
  exact wp_removeJournal hsafe (outside_matches T)
    (.of_marker (outside_matches T) hmatches h₁.journal.directory (.inr rfl))
    (fun d' h' => hC d' (.inr h')) hQ

theorem wp_recover_settled (hsafe : sys.Safe) (hP : Outside P) (h : Settled P d) (hC : ∀ d', Settled P d' → C d')
    (hQ : ∀ d', P d'.files → ¬ d'.files.Exists activeDirectory → Q () d') :
    wp sys recover Q C E d := by
  refine wp_bind (wp_disk ?_)
  by_cases hex : d.files.Exists activeDirectory
  · rw [if_pos hex, if_pos ?_]
    · exact wp_removeJournal hsafe hP h hC hQ
    · by_cases hprepared : d.files.Exists preparedMarker
      · exact .inr (h.ended hprepared)
      · exact .inl hprepared
  · rw [if_neg hex]
    exact wp_pure (hQ d h.holds hex)

theorem wp_recover_live (hsafe : sys.Safe) (h : Live m T d) (hC : ∀ d', Live m T d' ∨ Settled (Matches T) d' → C d')
    (hQ : ∀ d', Matches T d'.files → ¬ d'.files.Exists activeDirectory → Q () d') :
    wp sys recover Q C E d := by
  have hj := h.journal
  have hex : d.files.Exists activeDirectory := by
    obtain ⟨q, hq, hne⟩ := exists_iff.mp hj.prepared
    exact exists_iff.mpr ⟨q, (by decide : activeDirectory <+: preparedMarker).trans hq, hne⟩
  refine wp_bind (wp_disk ?_)
  rw [if_pos hex, if_neg (not_or.mpr ⟨not_not.mpr hj.prepared, not_or.mpr ⟨hj.committed, hj.rolledBack⟩⟩)]
  refine wp_bind (wp_readFile hj.manifest (wp_bind (wp_failIf ?_ fun _ => wp_bind (wp_failIf ?_ fun _ => ?_))))
  · exact fun hfence => absurd hfence.1 h.orderly.not_hasOrderedFence
  · exact fun hanchor => absurd hanchor.1 h.orderly.not_hasOrderedFence
  · refine wp_bind (wp_lift ?_ ?_)
    · rintro _ ⟨⟩
      rw [if_neg (by rw [hj.version]; decide)]
      exact wp_rollbackActive hsafe h hC hQ
    · rintro _ ⟨⟩

end
end Kilogram.State
