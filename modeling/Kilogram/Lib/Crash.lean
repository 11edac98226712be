import Mathlib.Tactic

/-!
# Programs that can lose power

A program works on a disk by atomic steps. It ends with a value, with a fault of its own, or between two
of its steps, where the power goes.
-/

namespace Crash
variable {ρ σ ε α β : Type}

inductive Stop (ε : Type)
  | power
  | fault (error : ε)

/-- The disk, and the number of steps until the power goes: none if it stays. -/
structure Machine (σ : Type) where
  disk : σ
  power : Option Nat

/-- A program ends or goes on: it leaves a choice to the environment of type `ρ`, reads the disk, changes
it by one atomic step, or asks for the lock. -/
inductive Prog (ρ σ ε α : Type)
  | done (result : Except ε α)
  | ask (next : ρ → Prog ρ σ ε α)
  | see (next : σ → Prog ρ σ ε α)
  | write (f : σ → σ) (next : Prog ρ σ ε α)
  | request (next : Bool → Prog ρ σ ε α)

namespace Prog

def andThen (f : α → Prog ρ σ ε β) : Prog ρ σ ε α → Prog ρ σ ε β
  | done (.ok a) => f a
  | done (.error e) => done (.error e)
  | ask next => ask fun env => (next env).andThen f
  | see next => see fun s => (next s).andThen f
  | write g next => write g (next.andThen f)
  | request next => request fun free => (next free).andThen f

instance : Monad (Prog ρ σ ε) where
  pure a := done (.ok a)
  bind m f := m.andThen f

def disk : Prog ρ σ ε σ := see pure
def environment : Prog ρ σ ε ρ := ask pure
def tryLock : Prog ρ σ ε Bool := request pure
def fail (e : ε) : Prog ρ σ ε α := done (.error e)
def failIf (c : Prop) [Decidable c] (e : ε) : Prog ρ σ ε Unit := if c then fail e else pure ()
def when (c : Prop) [Decidable c] (m : Prog ρ σ ε Unit) : Prog ρ σ ε Unit := if c then m else pure ()
def lift (x : Except ε α) : Prog ρ σ ε α := done x
def act (f : σ → σ) : Prog ρ σ ε Unit := write f (pure ())

/-- The run of a program that is alone: it is given the lock. -/
def run : Prog ρ σ ε α → ρ → Machine σ → Except (Stop ε) α × Machine σ
  | done (.ok a), _, w => (.ok a, w)
  | done (.error e), _, w => (.error (.fault e), w)
  | ask next, env, w => (next env).run env w
  | see next, env, w => (next w.disk).run env w
  | request next, env, w => (next true).run env w
  | write f next, env, ⟨s, none⟩ => next.run env ⟨f s, none⟩
  | write _ _, _, ⟨s, some 0⟩ => (.error .power, ⟨s, some 0⟩)
  | write f next, env, ⟨s, some (n + 1)⟩ => next.run env ⟨f s, some n⟩

instance : CoeFun (Prog ρ σ ε α) fun _ => ρ → Machine σ → Except (Stop ε) α × Machine σ := ⟨run⟩

theorem run_bind (env : ρ) (m : Prog ρ σ ε α) (f : α → Prog ρ σ ε β) (w : Machine σ) :
    (m >>= f) env w = match m env w with
      | (.ok a, w) => f a env w
      | (.error e, w) => (.error e, w) := by
  simp only [bind]
  induction m generalizing w with
  | done r => cases r <;> rfl
  | ask next ih => exact ih env w
  | see next ih => exact ih w.disk w
  | request next ih => exact ih true w
  | write g next ih =>
    obtain ⟨s, _ | _ | n⟩ := w
    · exact ih ⟨g s, none⟩
    · rfl
    · exact ih ⟨g s, some n⟩

end Prog

open Prog

/-- The program runs to its end and returns `a`. -/
def Returns (env : ρ) (m : Prog ρ σ ε α) (s : σ) (a : α) (t : σ) : Prop := m env ⟨s, none⟩ = (.ok a, ⟨t, none⟩)

/-- The program runs to a fault of its own. -/
def Faults (env : ρ) (m : Prog ρ σ ε α) (s : σ) (e : ε) (t : σ) : Prop :=
  m env ⟨s, none⟩ = (.error (.fault e), ⟨t, none⟩)

/-- The power goes after `n` steps of the program. -/
def CutAt (env : ρ) (m : Prog ρ σ ε α) (n : Nat) (s t : σ) : Prop :=
  ∃ power, m env ⟨s, some n⟩ = (.error .power, ⟨t, power⟩)

def Cut (env : ρ) (m : Prog ρ σ ε α) (s t : σ) : Prop := ∃ n, CutAt env m n s t

/-- Where the power stays there is no cut. -/
def Ends (Q : α → σ → Prop) (C : σ → Prop) (E : ε → σ → Prop) (power : Option Nat) :
    Except (Stop ε) α × Machine σ → Prop
  | (.ok a, w) => Q a w.disk ∧ (power = none → w.power = none)
  | (.error .power, w) => C w.disk ∧ power ≠ none
  | (.error (.fault e), w) => E e w.disk ∧ (power = none → w.power = none)

/-- From the disk `s` the program returns in `Q`, is cut in `C` or faults in `E`. -/
def wp (env : ρ) (m : Prog ρ σ ε α) (Q : α → σ → Prop) (C : σ → Prop) (E : ε → σ → Prop) (s : σ) : Prop :=
  ∀ power, Ends Q C E power (m env ⟨s, power⟩)

variable {env : ρ} {m : Prog ρ σ ε α} {Q Q' : α → σ → Prop} {C C' : σ → Prop} {E E' : ε → σ → Prop}
  {s t : σ}

theorem Ends.mono {power : Option Nat} {r : Except (Stop ε) α × Machine σ} (h : Ends Q C E power r)
    (hQ : ∀ a t, Q a t → Q' a t) (hC : ∀ t, C t → C' t) (hE : ∀ e t, E e t → E' e t) :
    Ends Q' C' E' power r := by
  rcases r with ⟨(_ | e) | a, w⟩
  · exact ⟨hC _ h.1, h.2⟩
  · exact ⟨hE _ _ h.1, h.2⟩
  · exact ⟨hQ _ _ h.1, h.2⟩

theorem wp.mono (h : wp env m Q C E s) (hQ : ∀ a t, Q a t → Q' a t) (hC : ∀ t, C t → C' t)
    (hE : ∀ e t, E e t → E' e t) : wp env m Q' C' E' s :=
  fun power => (h power).mono hQ hC hE

theorem wp.post (h : wp env m Q C E s) (hQ : ∀ a t, Q a t → Q' a t) : wp env m Q' C E s :=
  h.mono hQ (fun _ h => h) fun _ _ h => h

theorem wp_pure {a : α} (h : Q a s) : wp env (pure a) Q C E s := fun _ => ⟨h, fun h => h⟩

theorem Ends.weaken {power power' : Option Nat} {r : Except (Stop ε) α × Machine σ}
    (h : Ends Q C E power r) (hp : power' = none → power = none) : Ends Q C E power' r := by
  rcases r with ⟨(_ | e) | a, w⟩
  · exact ⟨h.1, fun hn => h.2 (hp hn)⟩
  · exact ⟨h.1, fun hn => h.2 (hp hn)⟩
  · exact ⟨h.1, fun hn => h.2 (hp hn)⟩

theorem wp_bind {f : α → Prog ρ σ ε β} {Q : β → σ → Prop}
    (h : wp env m (fun a t => wp env (f a) Q C E t) C E s) : wp env (m >>= f) Q C E s := by
  intro power
  have hm := h power
  rw [run_bind]
  rcases hr : m env ⟨s, power⟩ with ⟨(_ | e) | a, w⟩ <;> rw [hr] at hm
  · exact hm
  · exact hm
  · exact (hm.1 w.power).weaken hm.2

theorem wp_disk {Q : σ → σ → Prop} (h : Q s s) : wp env disk Q C E s := fun _ => ⟨h, fun h => h⟩

theorem wp_tryLock {Q : Bool → σ → Prop} (h : Q true s) : wp env tryLock Q C E s := fun _ => ⟨h, fun h => h⟩

theorem wp_environment {Q : ρ → σ → Prop} (h : Q env s) : wp env environment Q C E s := fun _ => ⟨h, fun h => h⟩

theorem wp_fail {e : ε} (h : E e s) : wp env (fail e) Q C E s := fun _ => ⟨h, fun h => h⟩

theorem wp_failIf {c : Prop} [Decidable c] {e : ε} {Q : Unit → σ → Prop} (hc : c → E e s)
    (h : ¬ c → Q () s) : wp env (failIf c e) Q C E s := by
  unfold failIf
  split_ifs with hif
  · exact wp_fail (hc hif)
  · exact wp_pure (h hif)

theorem wp_when {c : Prop} [Decidable c] {m : Prog ρ σ ε Unit} {Q : Unit → σ → Prop}
    (hc : c → wp env m Q C E s) (h : ¬ c → Q () s) : wp env (when c m) Q C E s := by
  unfold when
  split_ifs with hif
  · exact hc hif
  · exact wp_pure (h hif)

theorem wp_lift {x : Except ε α} (h : ∀ a, x = .ok a → Q a s) (he : ∀ e, x = .error e → E e s) :
    wp env (lift x) Q C E s := by
  cases x with
  | ok a => exact wp_pure (h a rfl)
  | error e => exact wp_fail (he e rfl)

/-- The power goes before the step or it stays. -/
theorem wp_act {f : σ → σ} {Q : Unit → σ → Prop} (hC : C s) (h : Q () (f s)) : wp env (act f) Q C E s := by
  rintro (_ | _ | n)
  · exact ⟨h, fun _ => rfl⟩
  · exact ⟨hC, by simp⟩
  · exact ⟨h, by simp⟩

/-- A pass over a list, by what holds when a given part of the list is still to come. -/
theorem wp_forM {f : β → Prog ρ σ ε PUnit} {Q : PUnit → σ → Prop} (I : List β → σ → Prop)
    (step : ∀ b l t, I (b :: l) t → wp env (f b) (fun _ t => I l t) C E t) {l : List β}
    (h : I l s) (hQ : ∀ t, I [] t → Q ⟨⟩ t) : wp env (l.forM f) Q C E s := by
  induction l generalizing s with
  | nil => exact wp_pure (hQ s h)
  | cons b l ih => exact wp_bind ((step b l s h).post fun _ t ht => ih ht)

theorem wp_forM_const {f : β → Prog ρ σ ε PUnit} {Q : PUnit → σ → Prop} {l : List β}
    (step : ∀ b ∈ l, wp env (f b) (fun _ t => t = s) C E s) (h : Q ⟨⟩ s) :
    wp env (l.forM f) Q C E s := by
  refine wp_forM (fun l' t => (∀ b ∈ l', b ∈ l) ∧ t = s) ?_ ⟨fun b hb => hb, rfl⟩ ?_
  · rintro b l' _ ⟨hl', rfl⟩
    exact (step b (hl' b (.head _))).post fun _ t ht =>
      ⟨fun c hc => hl' c (List.mem_cons_of_mem b hc), ht⟩
  · rintro _ ⟨-, rfl⟩
    exact h

theorem wp_mapM_const {f : β → Prog ρ σ ε α} {Q : List α → σ → Prop} {R : β → α → Prop} {l : List β}
    (step : ∀ b ∈ l, ∀ K : α → σ → Prop, (∀ a, R b a → K a s) → wp env (f b) K C E s)
    (h : ∀ as, (∀ a ∈ as, ∃ b ∈ l, R b a) → (∀ b ∈ l, ∃ a ∈ as, R b a) → Q as s) :
    wp env (l.mapM f) Q C E s := by
  have hloop (l' : List β) (done : List α) (hl' : ∀ b ∈ l', b ∈ l) (h₁ : ∀ a ∈ done, ∃ b ∈ l, R b a)
      (h₂ : ∀ b ∈ l, b ∈ l' ∨ ∃ a ∈ done, R b a) : wp env (List.mapM.loop f l' done) Q C E s := by
    induction l' generalizing done with
    | nil =>
      refine wp_pure (h _ (fun a ha => h₁ a (List.mem_reverse.mp ha)) fun b hb => ?_)
      obtain ⟨a, ha, hR⟩ := (h₂ b hb).resolve_left List.not_mem_nil
      exact ⟨a, List.mem_reverse.mpr ha, hR⟩
    | cons b l' ih =>
      have hb := hl' b (.head _)
      refine wp_bind (step b hb _ fun a ha => ih (a :: done) (fun c hc =>
        hl' c (.tail _ hc)) (fun c hc => ?_) fun c hc => ?_)
      · rcases List.mem_cons.mp hc with rfl | hc
        · exact ⟨b, hb, ha⟩
        · exact h₁ c hc
      · rcases h₂ c hc with hmem | ⟨a', ha', hR⟩
        · rcases List.mem_cons.mp hmem with rfl | hmem
          · exact .inr ⟨a, .head _, ha⟩
          · exact .inl hmem
        · exact .inr ⟨a', List.mem_cons_of_mem _ ha', hR⟩
  exact hloop l [] (fun _ hb => hb) (fun _ ha => absurd ha List.not_mem_nil) fun _ hb => .inl hb

theorem wp.cut (h : wp env m Q C E s) (hcut : Cut env m s t) : C t := by
  obtain ⟨n, power, hn⟩ := hcut
  have := h (some n)
  rw [hn] at this
  exact this.1

theorem wp.of_returns {a : α} (h : wp env m Q C E s) (hr : Returns env m s a t) : Q a t := by
  have := h none
  rw [hr] at this
  exact this.1

theorem wp.of_faults {e : ε} (h : wp env m Q C E s) (hr : Faults env m s e t) : E e t := by
  have := h none
  rw [hr] at this
  exact this.1

/-- What holds wherever the program ends holds of the disk. -/
theorem wp.served {P : σ → Prop} (h : wp env m (fun _ => P) P (fun _ => P) s) (power : Option Nat) :
    P (m env ⟨s, power⟩).2.disk := by
  have hends := h power
  rcases hr : m env ⟨s, power⟩ with ⟨(_ | e) | a, w⟩ <;> rw [hr] at hends <;> exact hends.1

/-- Where no fault is possible, a program that keeps its power returns. -/
theorem wp.returns (h : wp env m Q C (fun _ _ => False) s) : ∃ a t, Returns env m s a t ∧ Q a t := by
  have hn := h none
  unfold Returns
  rcases hr : m env ⟨s, none⟩ with ⟨(_ | e) | a, ⟨t, power⟩⟩ <;> rw [hr] at hn
  · exact absurd rfl hn.2
  · exact hn.1.elim
  · obtain rfl : power = none := hn.2 rfl
    exact ⟨a, t, rfl, hn.1⟩

/-- The power has gone. -/
def Except.isPower : Except (Stop ε) α → Bool
  | .error .power => true
  | _ => false

/-- The fault that a program ended with. -/
def Except.fault : Except (Stop ε) α → Option ε
  | .error (.fault e) => some e
  | _ => none

theorem Returns.disk_eq {a : α} (h : Returns env m s a t) : t = (m env ⟨s, none⟩).2.disk := by
  rw [h]

theorem returns_of_isOk (h : (m env ⟨s, none⟩).1.isOk = true) (hp : (m env ⟨s, none⟩).2.power = none) :
    ∃ a, Returns env m s a (m env ⟨s, none⟩).2.disk := by
  unfold Returns
  rcases hr : m env ⟨s, none⟩ with ⟨_ | a, ⟨t, power⟩⟩ <;> rw [hr] at h hp
  · cases h
  · obtain rfl : power = none := hp
    exact ⟨a, rfl⟩

theorem cutAt_of_isPower {n : Nat} (h : Except.isPower (m env ⟨s, some n⟩).1 = true) :
    CutAt env m n s (m env ⟨s, some n⟩).2.disk := by
  unfold CutAt
  rcases hr : m env ⟨s, some n⟩ with ⟨(_ | e) | a, ⟨t, power⟩⟩ <;> rw [hr] at h
  · exact ⟨power, rfl⟩
  · cases h
  · cases h

end Crash
