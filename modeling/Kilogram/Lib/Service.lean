import Mathlib.Tactic

/-!
# Services

A service has a state and answers calls, one after the other.
-/

structure Service (σ κ α : Type) where
  start : σ
  serve : κ → σ → α × σ

namespace Service
variable {σ κ α : Type}

def after (S : Service σ κ α) (calls : List κ) : σ := calls.foldl (fun t call => (S.serve call t).2) S.start
def answer (S : Service σ κ α) (before : List κ) (call : κ) : α := (S.serve call (S.after before)).1

def Answered (S : Service σ κ α) (calls : List κ) (call : κ) (a : α) : Prop :=
  ∃ before rest, calls = before ++ call :: rest ∧ S.answer before call = a

variable {S : Service σ κ α}

theorem Answered.concat {calls : List κ} {call : κ} {a : α} (h : S.Answered calls call a) (next : κ) :
    S.Answered (calls ++ [next]) call a := by
  obtain ⟨before, rest, rfl, ha⟩ := h
  exact ⟨before, rest ++ [next], by simp, ha⟩

theorem answered_last (calls : List κ) (call : κ) : S.Answered (calls ++ [call]) call (S.answer calls call) :=
  ⟨calls, [], rfl, rfl⟩

@[simp] theorem after_nil : S.after [] = S.start := rfl

theorem after_concat (calls : List κ) (call : κ) : S.after (calls ++ [call]) = (S.serve call (S.after calls)).2 := by
  rw [after, List.foldl_append]
  rfl

theorem invariant {I : σ → Prop} (hstart : I S.start)
    (hstep : ∀ t call, I t → I (S.serve call t).2) (calls : List κ) : I (S.after calls) := by
  induction calls using List.reverseRecOn with
  | nil => exact hstart
  | append_singleton calls call ih =>
    rw [after_concat]
    exact hstep _ _ ih

/-- An invariant of the calls so far and the state they led to. -/
theorem history {I : List κ → σ → Prop} (hstart : I [] S.start) (hstep : ∀ calls call, I calls (S.after calls) →
      I (calls ++ [call]) (S.serve call (S.after calls)).2) (calls : List κ) :
    I calls (S.after calls) := by
  induction calls using List.reverseRecOn with
  | nil => exact hstart
  | append_singleton calls call ih =>
    rw [after_concat]
    exact hstep _ _ ih

/-- What holds at one moment and is kept by the calls since then. -/
theorem since {I : σ → Prop} {before later : List κ} (h : I (S.after before))
    (hstep : ∀ mid call rest, later = mid ++ call :: rest →
      I (S.after (before ++ mid)) → I (S.serve call (S.after (before ++ mid))).2) :
    I (S.after (before ++ later)) := by
  induction later using List.reverseRecOn with
  | nil =>
    rw [List.append_nil]
    exact h
  | append_singleton later call ih =>
    have hlater := ih fun mid c rest hsplit => hstep mid c (rest ++ [call]) (by simp [hsplit])
    rw [← List.append_assoc, after_concat]
    exact hstep later call [] rfl hlater

end Service
