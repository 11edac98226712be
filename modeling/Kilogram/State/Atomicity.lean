import Kilogram.State.Workspaces

/-!
# Transactions of the state directory across crashes

A transaction begins, its body works on the files, and it is committed or rolled back; the power may go
anywhere on the way, and again while the directory is being recovered.
-/

namespace Kilogram.State
open Crash Crash.Prog FileSystem

/-- What the body of a transaction does. -/
inductive Op
  | edit (path : Path) (node : Option Node)
  | prepareRatchetWorkspace (read : VaultMutableRead)
  | prepareSequenceWorkspace (read : VaultMutableRead)
  | prepareTrustWorkspace (read : VaultMutableRead)
  | prepareLegacyTrustWorkspace
  | registerAppendOnlyWrite (path : Path)
  | compactRuntimeRecord (path : Path)

def Op.run (t : StateTransaction) : Op → M StateTransaction
  | .edit p n => do
    State.edit p n
    return t
  | .prepareRatchetWorkspace read => t.prepareRatchetWorkspace read
  | .prepareSequenceWorkspace read => t.prepareSequenceWorkspace read
  | .prepareTrustWorkspace read => t.prepareTrustWorkspace read
  | .prepareLegacyTrustWorkspace => t.prepareLegacyTrustWorkspace
  | .registerAppendOnlyWrite p => t.registerAppendOnlyWrite p
  | .compactRuntimeRecord p => t.compactRuntimeRecord p

/-- The body keeps to the files of a transaction, and reads come from an orderly vault. -/
def Op.Proper (T : Target) : Op → Prop
  | .edit p n => Editable T p n
  | .prepareRatchetWorkspace read => read.Proper
  | .prepareTrustWorkspace read => read.Proper
  | _ => True

/-- What the transaction goes back to after an operation. -/
def Target.after (T : Target) (fs : FileSystem) : Op → Target
  | .prepareRatchetWorkspace read =>
    (readBaseline .ratchet .ratchetWorkspaceKindMismatch read.records ∅).toOption.elim T T.withRatchet
  | .prepareSequenceWorkspace read =>
    (StateTransaction.sequenceContent read.records).toOption.elim T T.withSequence
  | .prepareTrustWorkspace read =>
    (readBaseline .trust .trustWorkspaceKindMismatch read.records ∅).toOption.elim T
      fun baseline => T.withTrust baseline.lookup
  | .prepareLegacyTrustWorkspace => T.withTrust (trustContents fs)
  | _ => T

/-- What the transaction knows after an operation that began on the files `fs`. -/
def Op.Yields (fs : FileSystem) (t t' : StateTransaction) : Op → Prop
  | .edit _ _ => t' = t
  | .prepareRatchetWorkspace read => ∃ baseline, readBaseline .ratchet .ratchetWorkspaceKindMismatch
      read.records ∅ = .ok baseline ∧ t' = { t with ratchetPrimaryBaseline := some baseline }
  | .prepareSequenceWorkspace _ => t' = { t with sequencePrimaryPrepared := true }
  | .prepareTrustWorkspace read => ∃ baseline, readBaseline .trust .trustWorkspaceKindMismatch
      read.records ∅ = .ok baseline ∧ t' = { t with trustPrimaryBaseline := some baseline }
  | .prepareLegacyTrustWorkspace => ∃ baseline : Contents, (∀ p, baseline.lookup p = trustContents fs p) ∧
      t' = { t with trustPrimaryBaseline := some baseline }
  | .registerAppendOnlyWrite p => t' = { t with appendOnlyWrites := t.appendOnlyWrites.insert p }
  | .compactRuntimeRecord p => t' = t ∨ t' = { t with appendOnlyRemovals := t.appendOnlyRemovals.insert p }

/-- The transaction that began on `d₀` is on its way; it goes back to the target. -/
inductive Running (sys : System) (d₀ : Disk) : Disk → StateTransaction → Target → Prop
  | begun {d : Disk} {t : StateTransaction} (h : Returns sys StateTransaction.begin d₀ t d) :
      Running sys d₀ d t (.of d₀)
  | done {d d' : Disk} {t t' : StateTransaction} {T : Target} {op : Op} (h : Running sys d₀ d t T)
      (hop : op.Proper T) (hr : Returns sys (op.run t) d t' d') :
      Running sys d₀ d' t' (T.after d.files op)
  | refused {d d' : Disk} {t : StateTransaction} {T : Target} {op : Op} {e : StateError}
      (h : Running sys d₀ d t T) (hop : op.Proper T) (hr : Faults sys (op.run t) d e d') :
      Running sys d₀ d' t T

/-- Outside the journal everything is as it was left. -/
def Left (fs₀ fs : FileSystem) : Prop := ∀ p, ¬ activeDirectory <+: p → fs.lookup p = fs₀.lookup p

/-- Where a crash may leave the disk, and what the files then have to become. The first step of a
commit is the writing of its marker. -/
inductive Crashed (sys : System) (d₀ : Disk) : Disk → (FileSystem → Prop) → Prop
  | beginning {d : Disk} (h : Cut sys StateTransaction.begin d₀ d) : Crashed sys d₀ d (Matches (.of d₀))
  | body {d : Disk} {t : StateTransaction} {T : Target} (h : Running sys d₀ d t T) : Crashed sys d₀ d (Matches T)
  | operation {d d' : Disk} {t : StateTransaction} {T : Target} {op : Op} (h : Running sys d₀ d t T)
      (hop : op.Proper T) (hc : Cut sys (op.run t) d d') :
      Crashed sys d₀ d' fun fs => Matches T fs ∨ Matches (T.after d.files op) fs
  | rollback {d d' : Disk} {t : StateTransaction} {T : Target} (h : Running sys d₀ d t T)
      (hc : Cut sys StateTransaction.rollback d d' ∨ Returns sys StateTransaction.rollback d () d') :
      Crashed sys d₀ d' (Matches T)
  | uncommitted {d d' : Disk} {t : StateTransaction} {T : Target} (h : Running sys d₀ d t T)
      (hc : CutAt sys StateTransaction.commit 0 d d') : Crashed sys d₀ d' (Matches T)
  | committed {d d' : Disk} {t : StateTransaction} {T : Target} {n : Nat} (h : Running sys d₀ d t T)
      (hc : CutAt sys StateTransaction.commit (n + 1) d d' ∨ Returns sys StateTransaction.commit d () d') :
      Crashed sys d₀ d' (Left d.files)

/-- An attempt to take the lock that lost its power, on any system with a safe order. -/
def Interrupted (d d' : Disk) : Prop := ∃ sys : System, sys.Safe ∧ Cut sys recover d d'

theorem outside_left (fs₀ : FileSystem) : Outside (Left fs₀) := fun _ _ heq h p hp => (heq p hp).trans (h p hp)

theorem Outside.or {P P' : FileSystem → Prop} (h : Outside P) (h' : Outside P') : Outside fun fs => P fs ∨ P' fs :=
  fun fs fs' heq hp => hp.imp (h fs fs' heq) (h' fs fs' heq)

section
variable {sys : System} {d d' d₀ : Disk} {t t' : StateTransaction} {T : Target} {op : Op}

theorem wp_op (h : Body t T d) (hop : op.Proper T) :
    wp sys (op.run t) (fun t' d' => op.Yields d.files t t' ∧ Body t' (T.after d.files op) d')
      (fun d' => Pending T d' ∨ Pending (T.after d.files op) d') (fun _ d' => d' = d) d := by
  cases op with
  | edit p n =>
    exact wp_bind (wp_edit h hop (fun _ => .inl) fun d' h' => wp_pure ⟨rfl, h'⟩)
  | prepareRatchetWorkspace read =>
    refine wp_prepareRatchetWorkspace h hop (fun d' h' => h'.imp_right ?_) ?_ fun _ => rfl
    · rintro ⟨baseline, hb, h'⟩
      simp only [Target.after, hb]
      exact h'
    · intro d' baseline hb h'
      refine ⟨⟨baseline, hb, rfl⟩, ?_⟩
      simp only [Target.after, hb]
      exact h'
  | prepareSequenceWorkspace read =>
    refine wp_prepareSequenceWorkspace h (fun d' h' => h'.imp_right ?_) ?_ fun _ => rfl
    · rintro ⟨content, hc, h'⟩
      simp only [Target.after, hc]
      exact h'
    · intro d' content hc h'
      refine ⟨rfl, ?_⟩
      simp only [Target.after, hc]
      exact h'
  | prepareTrustWorkspace read =>
    refine wp_prepareTrustWorkspace h hop (fun d' h' => h'.imp_right ?_) ?_ fun _ => rfl
    · rintro ⟨baseline, hb, h'⟩
      simp only [Target.after, hb]
      exact h'
    · intro d' baseline hb h'
      refine ⟨⟨baseline, hb, rfl⟩, ?_⟩
      simp only [Target.after, hb]
      exact h'
  | prepareLegacyTrustWorkspace =>
    exact wp_prepareLegacyTrustWorkspace h (fun _ h' => h')
      (fun _ baseline hb h' => ⟨⟨baseline, hb, rfl⟩, h'⟩) fun _ => rfl
  | registerAppendOnlyWrite p =>
    exact wp_registerAppendOnlyWrite h (fun h' => ⟨rfl, h'⟩) fun _ => rfl
  | compactRuntimeRecord p =>
    exact wp_compactRuntimeRecord h (fun _ h' => .inl h') ⟨.inl rfl, h⟩ (fun _ h' => ⟨.inr rfl, h'⟩) fun _ => rfl

theorem Running.toBody (h₀ : Initial d₀.files) (h : Running sys d₀ d t T) : Body t T d := by
  induction h with
  | begun h =>
    have hwp : wp sys StateTransaction.begin (fun t d' => Body t (.of d₀) d') (fun _ => True)
        (fun _ _ => True) d₀ := wp_begin h₀ (fun _ _ => trivial) fun _ h => h
    exact hwp.of_returns h
  | done h hop hr ih => exact ((wp_op ih hop).of_returns hr).2
  | refused h hop hr ih =>
    rw [(wp_op ih hop).of_faults hr]
    exact ih

theorem writeMarker_apply {p : Path} (h : ¬ d.files.Exists p) (power : Option Nat) : writeMarker p sys ⟨d, power⟩ =
      (act fun d => { d with files := d.files.insert p (.file marker) }) sys ⟨d, power⟩ := by
  simp [writeMarker, files, bind, pure, Prog.disk, failIf, h, change, andThen, run]

/-- The marker is written first; from there on the transaction has ended. -/
theorem commit_cutAt (hsafe : sys.Safe) {n : Nat} (h : Pending T d) (hc : CutAt sys StateTransaction.commit n d d') :
    n = 0 ∧ d' = d ∨ 0 < n ∧ Settled (Left d.files) d' := by
  obtain ⟨m, h⟩ := h
  obtain ⟨power, hc⟩ := hc
  rw [StateTransaction.commit, run_bind, writeMarker_apply h.journal.committed] at hc
  cases n with
  | zero =>
    cases hc
    exact .inl ⟨rfl, rfl⟩
  | succ n =>
    have hsettled : Settled (Left d.files) _ :=
      .of_marker (outside_left _) (fun _ _ => rfl) h.journal.directory (.inl rfl)
    have hwp := wp_removeJournal (E := fun _ _ => True) (Q := fun _ _ => True) hsafe (outside_left _)
      hsettled (fun d' h' => h') fun _ _ _ => trivial
    exact .inr ⟨Nat.succ_pos n, hwp.cut ⟨n, power, hc⟩⟩

theorem commit_returns (hsafe : sys.Safe) (h : Pending T d)
    (hr : Returns sys StateTransaction.commit d () d') : Settled (Left d.files) d' := by
  obtain ⟨m, h⟩ := h
  have hwp : wp sys StateTransaction.commit (fun _ d' => Settled (Left d.files) d') (fun _ => True)
      (fun _ _ => True) d := by
    refine wp_bind (wp_writeMarker h.journal.committed trivial ?_)
    refine wp_removeJournal hsafe (outside_left d.files)
      (.of_marker (outside_left _) (fun _ _ => rfl) h.journal.directory (.inl rfl)) (fun _ _ => trivial)
      fun d' hleft hidle => ⟨hleft, file_eq_none_of_not_exists hidle (List.prefix_refl _), fun hex => ?_⟩
    obtain ⟨q, hq, hne⟩ := exists_iff.mp hex
    exact absurd (exists_iff.mpr ⟨q, (List.prefix_append _ _).trans hq, hne⟩) hidle
  exact hwp.of_returns hr

/-- The disk leads to files as `P` says. -/
def Recoverable (P : FileSystem → Prop) (d : Disk) : Prop :=
  Settled P d ∨ ∃ T, (∀ fs, Matches T fs → P fs) ∧ Pending T d

theorem Settled.mono {P P' : FileSystem → Prop} (h : Settled P d) (hP : ∀ fs, P fs → P' fs) :
    Settled P' d := ⟨hP _ h.holds, h.directory, h.ended⟩

theorem wp_recover {P : FileSystem → Prop} (hsafe : sys.Safe) (hP : Outside P) (h : Recoverable P d) :
    wp sys recover (fun _ d' => P d'.files ∧ ¬ d'.files.Exists activeDirectory) (Recoverable P)
      (fun _ _ => False) d := by
  rcases h with h | ⟨T, hT, m, h⟩
  · exact wp_recover_settled hsafe hP h (fun _ h' => .inl h') fun _ h₁ h₂ => ⟨h₁, h₂⟩
  · refine wp_recover_live hsafe h (fun d' h' => ?_) fun _ h₁ h₂ => ⟨hT _ h₁, h₂⟩
    rcases h' with h' | h'
    · exact .inr ⟨T, hT, m, h'⟩
    · exact .inl (h'.mono hT)

theorem Recoverable.interrupted {P : FileSystem → Prop} (hP : Outside P)
    (hi : Relation.ReflTransGen Interrupted d d') (h : Recoverable P d) : Recoverable P d' := by
  induction hi with
  | refl => exact h
  | tail _ hcut ih =>
    obtain ⟨sys, hsafe, hcut⟩ := hcut
    exact (wp_recover hsafe hP ih).cut hcut

theorem wp_rollback (hsafe : sys.Safe) (h : Pending T d) :
    wp sys StateTransaction.rollback (fun _ d' => Settled (Matches T) d')
      (fun d' => Recoverable (Matches T) d') (fun _ _ => False) d := by
  obtain ⟨m, h⟩ := h
  refine wp_rollbackActive hsafe h (fun d' h' => ?_) fun d' hm hidle =>
    ⟨hm, file_eq_none_of_not_exists hidle (List.prefix_refl _), fun hex => ?_⟩
  · rcases h' with h' | h'
    · exact .inr ⟨T, fun _ h => h, m, h'⟩
    · exact .inl h'
  · obtain ⟨q, hq, hne⟩ := exists_iff.mp hex
    exact absurd (exists_iff.mpr ⟨q, (List.prefix_append _ _).trans hq, hne⟩) hidle

theorem Crashed.recoverable {P : FileSystem → Prop} (hsafe : sys.Safe) (h₀ : Initial d₀.files)
    (hc : Crashed sys d₀ d P) : Outside P ∧ Recoverable P d := by
  cases hc with
  | beginning h =>
    have hwp : wp sys StateTransaction.begin (fun _ _ => True) (Settled (Matches (.of d₀)))
        (fun _ _ => True) d₀ := wp_begin h₀ (fun _ h => h) fun _ _ => trivial
    exact ⟨outside_matches _, .inl (hwp.cut h)⟩
  | body h =>
    obtain ⟨m, hlive, -⟩ := h.toBody h₀
    exact ⟨outside_matches _, .inr ⟨_, fun _ h => h, m, hlive⟩⟩
  | operation h hop hcut =>
    refine ⟨(outside_matches _).or (outside_matches _), .inr ?_⟩
    rcases (wp_op (h.toBody h₀) hop).cut hcut with h' | h'
    · exact ⟨_, fun _ => .inl, h'⟩
    · exact ⟨_, fun _ => .inr, h'⟩
  | rollback h hcut =>
    obtain ⟨m, hlive, -⟩ := h.toBody h₀
    refine ⟨outside_matches _, ?_⟩
    rcases hcut with hcut | hr
    · exact (wp_rollback hsafe ⟨m, hlive⟩).cut hcut
    · exact .inl ((wp_rollback hsafe ⟨m, hlive⟩).of_returns hr)
  | uncommitted h hcut =>
    obtain ⟨m, hlive, -⟩ := h.toBody h₀
    rcases commit_cutAt hsafe ⟨m, hlive⟩ hcut with ⟨-, rfl⟩ | ⟨hn, -⟩
    · exact ⟨outside_matches _, .inr ⟨_, fun _ h => h, m, hlive⟩⟩
    · exact absurd hn (lt_irrefl 0)
  | committed h hcut =>
    obtain ⟨m, hlive, -⟩ := h.toBody h₀
    refine ⟨outside_left _, .inl ?_⟩
    rcases hcut with hcut | hr
    · rcases commit_cutAt hsafe ⟨m, hlive⟩ hcut with ⟨hn, -⟩ | ⟨-, h'⟩
      · cases hn
      · exact h'
    · exact commit_returns hsafe ⟨m, hlive⟩ hr

end

/-- A name that is longer than all names in use. -/
def freshName (fs : FileSystem) : String := String.ofList (['.', 't', 'm', 'p'] ++
    List.replicate (fs.keys.flatten.foldr (fun name n => max name.length n) 0) 'x')

theorem length_le_foldr {names : List String} {name : String} (h : name ∈ names) :
    name.length ≤ names.foldr (fun name n => max name.length n) 0 := by
  induction names with
  | nil => cases h
  | cons x names ih =>
    rcases List.mem_cons.mp h with rfl | h
    · exact le_max_left _ _
    · exact (ih h).trans (le_max_right _ _)

theorem freshName_notMem (fs : FileSystem) (dir : Path) : dir ++ [freshName fs] ∉ fs := by
  intro hmem
  have hname : freshName fs ∈ fs.keys.flatten :=
    List.mem_flatten.mpr ⟨_, AList.mem_keys.mpr hmem, List.mem_append_right dir List.mem_cons_self⟩
  have hlen := length_le_foldr hname
  rw [← String.length_toList, freshName, String.toList_ofList, List.length_append, List.length_replicate] at hlen
  simp only [List.length_cons, List.length_nil] at hlen
  omega

def System.listedBy (order : List Path → List Path) (horder : ∀ l p, p ∈ order l ↔ p ∈ l) : System where
  listing fs dir := order (fs.keys.filter fun p => decide (Below dir p))
  mem_listing fs dir p := by
    rw [horder, List.mem_filter, decide_eq_true_iff, AList.mem_keys, and_comm]
  temporary fs _ := freshName fs
  temporary_notMem := freshName_notMem
  temporary_name fs _ := by
    rw [freshName, String.toList_ofList]
    rfl
  databaseLength _ := 0

def newestFirst : System := .listedBy id fun _ _ => Iff.rfl

def preparedFirst : System :=
  .listedBy (fun l => l.filter (preparedMarker <+: ·) ++ l.filter (¬ preparedMarker <+: ·)) fun l p => by
    simp only [List.mem_append, List.mem_filter, decide_eq_true_eq, decide_not, Bool.not_eq_eq_eq_not,
      Bool.not_true, decide_eq_false_iff_not]
    tauto

theorem preparedFirst_safe : preparedFirst.Safe := by
  intro fs l₁ l₂ p q hl hp hq hmem
  set l := fs.keys.filter fun p => decide (Below activeDirectory p)
  have hl : l.filter (preparedMarker <+: ·) ++ l.filter (¬ preparedMarker <+: ·) = l₁ ++ p :: l₂ := hl
  have hnot : ¬ preparedMarker <+: p := by
    rcases hp with hp | hp
    · exact not_prefix_of_apart hp (by decide) (by decide)
    · exact not_prefix_of_apart hp (by decide) (by decide)
  -- nothing of the prepared marker is in the second part
  have hsecond : q ∉ l.filter (¬ preparedMarker <+: ·) := by simp [hq]
  rcases List.append_eq_append_iff.mp hl with ⟨a, ha, hb⟩ | ⟨a, ha, hb⟩
  · exact hsecond (hb ▸ List.mem_append_right _ (.tail _ hmem))
  · cases a with
    | nil =>
      rw [List.nil_append] at hb
      exact hsecond (hb ▸ List.mem_cons_of_mem _ hmem)
    | cons x a =>
      obtain rfl : p = x := (List.cons.inj hb).1
      have hfirst : p ∈ l.filter (preparedMarker <+: ·) := by
        rw [ha]
        simp
      exact hnot (by simpa using (List.mem_filter.mp hfirst).2)

def sampleDisk : Disk := ⟨AList.singleton [nextSequenceFile] (.file (.data [53])), none⟩

theorem initial_singleton (c : Content) :
    Initial (AList.singleton [nextSequenceFile] (Node.file c) : FileSystem) := by
  have hlookup (p : Path) (n : Node)
      (h : (AList.singleton [nextSequenceFile] (Node.file c) : FileSystem).lookup p = some n) :
      p = [nextSequenceFile] ∧ n = .file c := by
    obtain h := AList.mem_lookup_iff.mp h
    obtain h := List.mem_singleton.mp h
    cases h
    exact ⟨rfl, rfl⟩
  have hpath (p : Path) (h : (AList.singleton [nextSequenceFile] (Node.file c) : FileSystem).lookup p ≠ none) :
      p = [nextSequenceFile] := by
    obtain ⟨n, hn⟩ := Option.ne_none_iff_exists'.mp h
    exact (hlookup p n hn).1
  refine ⟨fun p n h => ?_, fun p h => ?_, fun p c' h q hq => ?_, fun hex => ?_⟩
  · obtain ⟨rfl, rfl⟩ := hlookup p n h
    exact allowed_sequence _
  · rw [hpath p h]
    decide
  · obtain ⟨rfl, -⟩ := hlookup p _ (file_eq_some.mp h)
    by_contra hne
    exact hq.2 (hpath q hne)
  · obtain ⟨q, hq, hne⟩ := exists_iff.mp hex
    rw [hpath q hne] at hq
    exact absurd hq (by decide)

theorem initial_sampleDisk : Initial sampleDisk.files := initial_singleton _

theorem proper_sequence (T : Target) (c : Content) : (Op.edit [nextSequenceFile] (some (.file c))).Proper T := by
  refine ⟨.inl ⟨nextSequenceFile, by decide, rfl⟩, fun h => ?_, ?_⟩
  · exact absurd h.zone (by unfold Zone; decide)
  · rintro x ⟨⟩
    exact allowed_sequence _

def sampleOp : Op := .edit [nextSequenceFile] (some (.file (.data [54])))

/-- The disk after the body, and after so many steps of the commit. -/
def sampleBegun (sys : System) : Disk := (StateTransaction.begin sys ⟨sampleDisk, none⟩).2.disk

def sampleLeft (sys : System) : Disk :=
  { sampleBegun sys with files := (sampleBegun sys).files.insert [nextSequenceFile] (.file (.data [54])) }

def sampleCommit (sys : System) (n : Nat) : Disk := (StateTransaction.commit sys ⟨sampleLeft sys, some n⟩).2.disk

def sampleRecovered (sys : System) (n : Nat) : Disk := (recover sys ⟨sampleCommit sys n, none⟩).2.disk

theorem running_sample (sys : System) : ∃ t, Running sys sampleDisk (sampleLeft sys) t (.of sampleDisk) := by
  have hwp : wp sys StateTransaction.begin (fun _ _ => True) (fun _ => True) (fun _ _ => False) sampleDisk :=
    wp_begin initial_sampleDisk (fun _ _ => trivial) fun _ _ => trivial
  obtain ⟨t, d, hr, -⟩ := hwp.returns
  obtain rfl : d = sampleBegun sys := hr.disk_eq
  have hop : sampleOp.Proper (.of sampleDisk) := proper_sequence _ _
  exact ⟨t, .done (.begun hr) hop rfl⟩

/-- On systems that remove the prepared marker of a journal before the markers that end it: wherever a
transaction of an orderly directory is cut, and however often its recovery is cut as well, the next
recovery returns, no journal is left and the files are what they have to become. -/
theorem interrupted_transaction_recovers {sys sys' : System} (hsafe : sys.Safe) (hsafe' : sys'.Safe)
    {d₀ d d' : Disk} {P : FileSystem → Prop} (h₀ : Initial d₀.files) (hc : Crashed sys d₀ d P)
    (hi : Relation.ReflTransGen Interrupted d d') :
    ∃ d'', Returns sys' recover d' () d'' ∧ P d''.files ∧ ¬ d''.files.Exists activeDirectory := by
  obtain ⟨hP, h⟩ := hc.recoverable hsafe h₀
  obtain ⟨_, d'', hr, hd''⟩ := (wp_recover hsafe' hP (h.interrupted hP hi)).returns
  exact ⟨d'', hr, hd''⟩

/-- Two steps into a commit, the marker is written and the prepared marker removed; recovery is cut
once and then finishes. -/
theorem interrupted_transaction_recovers_sample :
    ∃ d', Interrupted (sampleCommit preparedFirst 2) d' ∧ ∃ d'', Returns preparedFirst recover d' () d'' ∧
      Left (sampleLeft preparedFirst).files d''.files ∧ ¬ d''.files.Exists activeDirectory := by
  obtain ⟨t, hrunning⟩ := running_sample preparedFirst
  have hcut : CutAt preparedFirst StateTransaction.commit 2 (sampleLeft preparedFirst)
      (sampleCommit preparedFirst 2) := cutAt_of_isPower (by decide +kernel)
  have hagain : CutAt preparedFirst recover 1 (sampleCommit preparedFirst 2) _ := cutAt_of_isPower (by decide +kernel)
  have hi : Interrupted (sampleCommit preparedFirst 2) _ := ⟨preparedFirst, preparedFirst_safe, 1, hagain⟩
  exact ⟨_, hi, interrupted_transaction_recovers preparedFirst_safe preparedFirst_safe initial_sampleDisk
    (.committed hrunning (.inl hcut)) (.single hi)⟩

/-- On a system that removes the newest entry first, the committed marker is gone after the second step
of a commit while the prepared marker is not: recovery undoes the committed transaction. -/
theorem committed_transaction_undone : Initial sampleDisk.files ∧
      Crashed newestFirst sampleDisk (sampleCommit newestFirst 2) (Left (sampleLeft newestFirst).files) ∧
      Returns newestFirst recover (sampleCommit newestFirst 2) () (sampleRecovered newestFirst 2) ∧
      (sampleLeft newestFirst).files.file [nextSequenceFile] = some (.data [54]) ∧
      (sampleRecovered newestFirst 2).files.file [nextSequenceFile] = some (.data [53]) ∧
      ¬ Left (sampleLeft newestFirst).files (sampleRecovered newestFirst 2).files := by
  obtain ⟨t, hrunning⟩ := running_sample newestFirst
  have hcut : CutAt newestFirst StateTransaction.commit 2 (sampleLeft newestFirst)
      (sampleCommit newestFirst 2) := cutAt_of_isPower (by decide +kernel)
  have hleft : (sampleLeft newestFirst).files.file [nextSequenceFile] = some (.data [54]) := by
    decide +kernel
  have hback : (sampleRecovered newestFirst 2).files.file [nextSequenceFile] = some (.data [53]) := by
    decide +kernel
  have hok : (recover newestFirst ⟨sampleCommit newestFirst 2, none⟩).1.isOk = true := by decide +kernel
  obtain ⟨⟨⟩, hr⟩ := returns_of_isOk hok (by decide +kernel)
  refine ⟨initial_sampleDisk, .committed hrunning (.inl hcut), hr, hleft, hback, fun h => ?_⟩
  rw [← file_congr (h [nextSequenceFile] (by decide)), hback] at hleft
  cases hleft

end Kilogram.State
