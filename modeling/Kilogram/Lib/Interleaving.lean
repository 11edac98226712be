import Kilogram.Lib.Crash
import Kilogram.Lib.Service

/-!
# Interleaved programs

Processes run operations on one disk and share one lock. Their steps are taken in any order, and a process
can die between two of them. Where the disk is changed under the lock only, and what an operation reads
before makes no difference to it, the disk is that of operations run one after another.
-/

namespace Crash
open Prog
open Function (update update_self update_of_ne)
variable {ρ σ ε α β ι : Type}

/-- An operation, and the number of steps after which the power goes if it does. -/
structure Call (ι : Type) where
  operation : ι
  power : Option Nat

/-- Operations after one another, each to its end or until the power goes. -/
def serial (prog : ι → Prog ρ σ ε α) (env : ρ) (start : σ) : Service σ (Call ι) (Except (Stop ε) α) where
  start := start
  serve call s :=
    let (answer, machine) := prog call.operation env ⟨s, call.power⟩
    (answer, machine.disk)

inductive Event (ι : Type)
  | start (process : Nat) (operation : ι)
  | move (process : Nat)
  | crash (process : Nat)

/-- `steps` counts the changes since the lock was taken, and `ended` has the operations that had the
lock and have it no more. -/
structure World (ρ σ ε α ι : Type) where
  disk : σ
  holder : Option Nat
  running : Nat → Option (ι × Prog ρ σ ε α)
  steps : Nat
  ended : List (Call ι)

namespace World

def goOn (w : World ρ σ ε α ι) (p : Nat) (operation : ι) (m : Prog ρ σ ε α) : World ρ σ ε α ι :=
  { w with running := update w.running p (some (operation, m)) }

/-- The process is gone, and its lock with it. -/
def leave (w : World ρ σ ε α ι) (p : Nat) (call : Call ι) : World ρ σ ε α ι :=
  let w' := { w with running := update w.running p none }
  if w.holder = some p then { w' with holder := none, ended := w.ended ++ [call] } else w'

/-- The next step of a process, and its answer if it has ended. The lock is given to one process. -/
def move (env : ρ) (w : World ρ σ ε α ι) (p : Nat) (operation : ι) :
    Prog ρ σ ε α → Option (ι × Except ε α) × World ρ σ ε α ι
  | .done r => (some (operation, r), w.leave p ⟨operation, none⟩)
  | .ask next => (none, w.goOn p operation (next env))
  | .see next => (none, w.goOn p operation (next w.disk))
  | .write f next => (none, { w.goOn p operation next with disk := f w.disk, steps := w.steps + 1 })
  | .request next =>
    if w.holder = none then
      (none, { w.goOn p operation (next true) with holder := some p, steps := 0 })
    else (none, w.goOn p operation (next (w.holder = some p)))

/-- The operations so far, the one that has the lock as if it was cut here. -/
def history (w : World ρ σ ε α ι) : List (Call ι) :=
  match w.holder.bind w.running with
  | some (operation, _) => w.ended ++ [⟨operation, some w.steps⟩]
  | none => w.ended

end World

def interleaved (prog : ι → Prog ρ σ ε α) (env : ρ) (start : σ) :
    Service (World ρ σ ε α ι) (Event ι) (Option (ι × Except ε α)) where
  start := ⟨start, none, fun _ => none, 0, []⟩
  serve
    | .start p operation, w =>
      match w.running p with
      | some _ => (none, w)
      | none => (none, w.goOn p operation (prog operation))
    | .move p, w =>
      match w.running p with
      | some (operation, m) => w.move env p operation m
      | none => (none, w)
    | .crash p, w =>
      match w.running p with
      | some (operation, _) => (none, w.leave p ⟨operation, some w.steps⟩)
      | none => (none, w)

/-- Whatever it reads in `I`, the program comes to `gate` and changes nothing. -/
inductive Leads (I : σ → Prop) (env : ρ) (gate : Prog ρ σ ε α) : Prog ρ σ ε α → Prop
  | here : Leads I env gate gate
  | ask {next : ρ → Prog ρ σ ε α} (h : Leads I env gate (next env)) : Leads I env gate (.ask next)
  | see {next : σ → Prog ρ σ ε α} (h : ∀ s, I s → Leads I env gate (next s)) : Leads I env gate (.see next)

/-- Where a program is refused, needs the lock, or, if it is allowed to, looks at the disk and ends. -/
inductive Gate (looks : Prop) : Prog ρ σ ε α → Prop
  | refused (e : ε) : Gate looks (.done (.error e))
  | look (h : looks) {next : σ → Prog ρ σ ε α} (hdone : ∀ s, ∃ r, next s = .done r) : Gate looks (.see next)
  | lock {next : Bool → Prog ρ σ ε α} {e : ε} (h : next false = .done (.error e)) : Gate looks (.request next)

section
variable {I : σ → Prop} {env : ρ} {m gate : Prog ρ σ ε α} {f : α → Prog ρ σ ε β} {s t : σ} {n : Nat}

theorem Leads.bind {a : α} (h : Leads I env (.done (.ok a)) m) : Leads I env (f a) (m >>= f) := by
  induction h with
  | here => exact .here
  | ask _ ih => exact .ask ih
  | see _ ih => exact .see ih

theorem Leads.run_eq (h : Leads I env gate m) (hs : I s) (power : Option Nat) :
    m env ⟨s, power⟩ = gate env ⟨s, power⟩ := by
  induction h with
  | here => rfl
  | ask _ ih => exact ih
  | see _ ih => exact ih s hs

/-- After `n` changes the program from `s` is at `m` and the disk at `t`. -/
def Reaches (env : ρ) (start : Prog ρ σ ε α) (s : σ) (n : Nat) (m : Prog ρ σ ε α) (t : σ) : Prop :=
  start env ⟨s, none⟩ = m env ⟨t, none⟩ ∧ ∀ k, start env ⟨s, some (n + k)⟩ = m env ⟨t, some k⟩

theorem disk_of_no_power (m : Prog ρ σ ε α) (env : ρ) (t : σ) : (m env ⟨t, some 0⟩).2.disk = t := by
  induction m with
  | done r => cases r <;> rfl
  | ask next ih => exact ih env
  | see next ih => exact ih t
  | write f next _ => rfl
  | request next ih => exact ih true

variable {start : Prog ρ σ ε α}

theorem Reaches.write {f : σ → σ} {next : Prog ρ σ ε α} (h : Reaches env start s n (.write f next) t) :
    Reaches env start s (n + 1) next (f t) := by
  refine ⟨h.1, fun k => ?_⟩
  rw [Nat.add_assoc, Nat.add_comm 1 k]
  exact h.2 (k + 1)

theorem Reaches.disk_eq (h : Reaches env start s n m t) : (start env ⟨s, some n⟩).2.disk = t :=
  (congrArg (·.2.disk) (h.2 0)).trans (disk_of_no_power m env t)

end

/-- Operations that come to the lock before they change anything. -/
structure Locking (ρ σ ε α ι : Type) where
  prog : ι → Prog ρ σ ε α
  env : ρ
  start : σ
  ready : σ → Prop
  looks : ι → Prop
  ready_after : ∀ calls, ready ((serial prog env start).after calls)
  gate : ∀ operation, ∃ gate, Gate (looks operation) gate ∧ Leads ready env gate (prog operation)

section
variable (L : Locking ρ σ ε α ι)

def Locking.serial : Service σ (Call ι) (Except (Stop ε) α) := Crash.serial L.prog L.env L.start

def Locking.system : Service (World ρ σ ε α ι) (Event ι) (Option (ι × Except ε α)) := interleaved L.prog L.env L.start

/-- A process that does not have the lock has not changed the disk. -/
def Waits (operation : ι) (m : Prog ρ σ ε α) : Prop := (∃ r, m = .done r ∧ ∀ a, r = .ok a → L.looks operation) ∨
    ∃ gate, Gate (L.looks operation) gate ∧ Leads L.ready L.env gate (L.prog operation) ∧ Leads L.ready L.env gate m

structure Serialized (w : World ρ σ ε α ι) : Prop where
  waiting : ∀ p operation m, w.running p = some (operation, m) → w.holder ≠ some p → Waits L operation m
  free : w.holder = none → w.disk = L.serial.after w.ended
  held : ∀ p, w.holder = some p → ∃ operation m, w.running p = some (operation, m) ∧
    Reaches L.env (L.prog operation) (L.serial.after w.ended) w.steps m w.disk

variable {L} {w : World ρ σ ε α ι} {p : Nat} {operation : ι} {m : Prog ρ σ ε α}

theorem Serialized.disk_eq (h : Serialized L w) : w.disk = L.serial.after w.history := by
  unfold World.history
  cases hp : w.holder with
  | none => exact h.free hp
  | some p =>
    obtain ⟨operation, m, hm, hreaches⟩ := h.held p hp
    simp only [Option.bind_some, hm, Service.after_concat]
    exact hreaches.disk_eq.symm

/-- One step keeps the order of the operations. -/
def Keeps (L : Locking ρ σ ε α ι) (w w' : World ρ σ ε α ι) : Prop := Serialized L w' ∧ w.ended <+: w'.ended

theorem Serialized.wait (h : Serialized L w) (hp : w.holder ≠ some p) (hm : Waits L operation m) :
    Keeps L w (w.goOn p operation m) := by
  have hother {q : Nat} (hq : w.holder = some q) : (w.goOn p operation m).running q = w.running q :=
    update_of_ne (fun heq : q = p => hp (heq ▸ hq)) _ _
  refine ⟨⟨fun q operation' m' hq hfree => ?_, h.free, fun q hq => ?_⟩, List.prefix_rfl⟩
  · by_cases hqp : q = p
    · subst hqp
      have hself : (w.goOn q operation m).running q = some (operation, m) := update_self ..
      cases hself.symm.trans hq
      exact hm
    · exact h.waiting q operation' m' ((update_of_ne hqp _ _).symm.trans hq) hfree
  · obtain ⟨operation', m', hm', hreaches⟩ := h.held q hq
    exact ⟨operation', m', (hother hq).trans hm', hreaches⟩

theorem Serialized.work (h : Serialized L w) (hp : w.holder = none ∨ w.holder = some p)
    {disk : σ} {steps : Nat} (hm : Reaches L.env (L.prog operation) (L.serial.after w.ended) steps m disk) :
    Keeps L w { w.goOn p operation m with disk := disk, steps := steps, holder := some p } := by
  refine ⟨⟨fun q operation' m' hq hother => ?_, fun hnone => ?_, fun q hq => ?_⟩, List.prefix_rfl⟩
  · have hqp : q ≠ p := fun heq => hother (heq ▸ rfl)
    refine h.waiting q operation' m' ((update_of_ne hqp _ _).symm.trans hq) fun hq' => ?_
    rcases hp with hp | hp <;> cases hp.symm.trans hq'
    exact hqp rfl
  · cases hnone
  · cases hq
    exact ⟨operation, m, update_self .., hm⟩

theorem Serialized.leave (h : Serialized L w) {call : Call ι}
    (hcall : w.holder = some p → L.serial.after (w.ended ++ [call]) = w.disk) :
    Keeps L w (w.leave p call) := by
  have hne {q : Nat} {x : ι × Prog ρ σ ε α} (hq : update w.running p none q = some x) : q ≠ p := by
    rintro rfl
    cases (update_self q none w.running).symm.trans hq
  unfold World.leave
  dsimp only
  split_ifs with hp
  · refine ⟨⟨fun q operation m hq _ => ?_, fun _ => (hcall hp).symm, fun q hq => ?_⟩, List.prefix_append _ _⟩
    · refine h.waiting q operation m ((update_of_ne (hne hq) _ _).symm.trans hq) fun hq' => ?_
      cases hp.symm.trans hq'
      exact hne hq rfl
    · cases hq
  · have hother {q : Nat} (hq : w.holder = some q) : update w.running p none q = w.running q :=
      update_of_ne (fun heq : q = p => hp (heq ▸ hq)) _ _
    refine ⟨⟨fun q operation m hq => ?_, h.free, fun q hq => ?_⟩, List.prefix_rfl⟩
    · exact h.waiting q operation m ((update_of_ne (hne hq) _ _).symm.trans hq)
    · obtain ⟨operation, m, hm, hreaches⟩ := h.held q hq
      exact ⟨operation, m, (hother hq).trans hm, hreaches⟩

/-- A step of the process that has the lock. -/
theorem Serialized.move_holder (h : Serialized L w) (hp : w.holder = some p)
    (hm : w.running p = some (operation, m)) :
    Keeps L w (w.move L.env p operation m).2 := by
  obtain ⟨_, _, hm', hreaches⟩ := h.held p hp
  cases hm.symm.trans hm'
  obtain ⟨disk, holder, running, steps, ended⟩ := w
  obtain rfl : holder = some p := hp
  cases m with
  | done r =>
    refine h.leave fun _ => ?_
    rw [Service.after_concat]
    have hend : ((Prog.done r : Prog ρ σ ε α) L.env ⟨disk, none⟩).2.disk = disk := by cases r <;> rfl
    exact (congrArg (·.2.disk) hreaches.1).trans hend
  | ask next | see next => exact h.work (.inr rfl) hreaches
  | write f next => exact h.work (.inr rfl) hreaches.write
  | request next =>
    have hmove : (World.move L.env ⟨disk, some p, running, steps, ended⟩ p operation (.request next)).2 =
        World.goOn ⟨disk, some p, running, steps, ended⟩ p operation (next true) := by simp [World.move]
    rw [hmove]
    exact h.work (.inr rfl) hreaches

/-- A step of a process that does not have the lock. -/
theorem Serialized.move_other (h : Serialized L w) (hready : L.ready w.disk)
    (hp : w.holder ≠ some p) (hm : w.running p = some (operation, m)) :
    Keeps L w (w.move L.env p operation m).2 := by
  obtain ⟨r, rfl, hr⟩ | ⟨gate, hgate, hprog, hleads⟩ := h.waiting p operation m hm hp
  · exact h.leave fun hp' => absurd hp' hp
  cases hleads with
  | ask hnext => exact h.wait hp (.inr ⟨gate, hgate, hprog, hnext⟩)
  | see hnext => exact h.wait hp (.inr ⟨gate, hgate, hprog, hnext _ hready⟩)
  | here =>
    cases hgate with
    | refused e => exact h.leave fun hp' => absurd hp' hp
    | look hlooks hdone =>
      obtain ⟨r, hr⟩ := hdone w.disk
      exact h.wait hp (.inl ⟨r, hr, fun _ _ => hlooks⟩)
    | lock hrefused =>
      unfold World.move
      split_ifs with hfree
      · refine h.work (.inl hfree) ⟨?_, fun k => ?_⟩
        · rw [← h.free hfree]
          exact hprog.run_eq hready none
        · rw [← h.free hfree, Nat.zero_add]
          exact hprog.run_eq hready (some k)
      · have hfalse : decide (w.holder = some p) = false := decide_eq_false hp
        simp only [hfalse, hrefused]
        exact h.wait hp (.inl ⟨_, rfl, fun a ha => by cases ha⟩)

theorem Serialized.serve (h : Serialized L w) (event : Event ι) : Keeps L w (L.system.serve event w).2 := by
  have hsame : Keeps L w w := ⟨h, List.prefix_rfl⟩
  have hready : L.ready w.disk := h.disk_eq ▸ L.ready_after _
  cases event with
  | start p operation =>
    cases hp : w.running p with
    | some x => simpa only [Locking.system, interleaved, hp] using hsame
    | none =>
      simp only [Locking.system, interleaved, hp]
      obtain ⟨gate, hg, hleads⟩ := L.gate operation
      refine h.wait (fun hheld => ?_) (.inr ⟨gate, hg, hleads, hleads⟩)
      obtain ⟨_, _, hrunning, -⟩ := h.held p hheld
      cases hp.symm.trans hrunning
  | move p =>
    cases hp : w.running p with
    | none => simpa only [Locking.system, interleaved, hp] using hsame
    | some x =>
      simp only [Locking.system, interleaved, hp]
      by_cases hheld : w.holder = some p
      · exact h.move_holder hheld hp
      · exact h.move_other hready hheld hp
  | crash p =>
    cases hp : w.running p with
    | none => simpa only [Locking.system, interleaved, hp] using hsame
    | some x =>
      simp only [Locking.system, interleaved, hp]
      refine h.leave fun hheld => ?_
      rw [h.disk_eq, World.history, hheld]
      simp [hp]

theorem serialized_after (schedule : List (Event ι)) : Serialized L (L.system.after schedule) := by
  refine Service.invariant (I := Serialized L) ⟨?_, fun _ => rfl, ?_⟩ (fun w event h => (h.serve event).1) schedule
  · intro p operation m hm
    cases hm
  · intro p hp
    cases hp

theorem ended_prefix_history (w : World ρ σ ε α ι) : w.ended <+: w.history := by
  unfold World.history
  split
  · exact List.prefix_append _ _
  · exact List.prefix_rfl

theorem ended_grows {moment schedule : List (Event ι)} (hmoment : moment <+: schedule) :
    (L.system.after moment).ended <+: (L.system.after schedule).ended := by
  obtain ⟨rest, rfl⟩ := hmoment
  exact Service.since (I := fun w : World ρ σ ε α ι => (L.system.after moment).ended <+: w.ended)
    List.prefix_rfl fun mid event _ _ h => h.trans ((serialized_after _).serve event).2

/-- An operation that returns and does not only look was the last to have the lock, and its answer is the
one it gives after the operations before it. -/
theorem answered {moment : List (Event ι)} {event : Event ι} {a : α}
    (ha : L.system.answer moment event = some (operation, .ok a))
    (hlooks : ¬ L.looks operation) :
    L.serial.answer (L.system.after moment).ended ⟨operation, none⟩ = .ok a ∧
      (L.system.after (moment ++ [event])).ended = (L.system.after moment).ended ++ [⟨operation, none⟩] := by
  have h := serialized_after (L := L) moment
  rw [Service.after_concat]
  unfold Service.answer at ha ⊢
  generalize L.system.after moment = w at h ha ⊢
  cases event with
  | start p operation' | crash p => cases hp : w.running p <;> simp [Locking.system, interleaved, hp] at ha
  | move p =>
    cases hp : w.running p with
    | none => simp [Locking.system, interleaved, hp] at ha
    | some x =>
      obtain ⟨operation', m⟩ := x
      simp only [Locking.system, interleaved, hp] at ha ⊢
      cases m with
      | done r =>
        obtain ⟨rfl, rfl⟩ : operation' = operation ∧ r = .ok a := by simpa [World.move] using ha
        have hheld : w.holder = some p := by
          by_contra hne
          obtain ⟨r, hr, hl⟩ | ⟨gate, hg, -, hleads⟩ := h.waiting p _ _ hp hne
          · cases hr
            exact hlooks (hl a rfl)
          · cases hleads
            cases hg
        obtain ⟨_, _, hrunning, hreaches⟩ := h.held p hheld
        cases hp.symm.trans hrunning
        refine ⟨congrArg (·.1) hreaches.1, ?_⟩
        simp [World.move, World.leave, hheld]
      | ask | see | write => simp [World.move] at ha
      | request next =>
        simp only [World.move] at ha
        split_ifs at ha

end
end Crash
