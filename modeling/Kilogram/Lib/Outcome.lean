import Kilogram.Lib.Except

/-!
# Outcomes of fallible computations

`Meets x E P` says how a computation may end: with a value that meets `P`, or with an error that meets
`E`.
-/

namespace Except
variable {ε α β : Type}

def Meets (x : Except ε α) (E : ε → Prop) (P : α → Prop) : Prop :=
  match x with
  | ok a => P a
  | error e => E e

variable {E : ε → Prop} {P : α → Prop} {Q : β → Prop}
variable {x : Except ε α}

theorem meets_of_eq_ok {a : α} (h : x = ok a) (ha : P a) : x.Meets E P := by
  rw [h]
  exact ha

theorem meets_pure {a : α} (h : P a) : (pure a : Except ε α).Meets E P := h

theorem meets_bind {f : α → Except ε β} (hx : x.Meets E P)
    (hf : ∀ a, P a → (f a).Meets E Q) : (x >>= f).Meets E Q := by
  cases x with
  | ok a => exact hf a hx
  | error e => exact hx

theorem meets_failIf {c : Prop} [Decidable c] {e : ε} {P : Unit → Prop} (hc : ¬ c) (h : P ()) :
    (failIf c e).Meets E P := by
  rw [failIf_of_not hc]
  exact h

theorem meets_okOr {o : Option α} {e : ε} (h : ∀ a, o = some a → P a) (he : o = none → E e) :
    (okOr o e).Meets E P := by
  cases o with
  | none => exact he rfl
  | some a => exact h a rfl

theorem Meets.mono {E' : ε → Prop} {P' : α → Prop} (h : x.Meets E P)
    (hE : ∀ e, E e → E' e) (hP : ∀ a, P a → P' a) : x.Meets E' P' := by
  cases x with
  | ok a => exact hP a h
  | error e => exact hE e h

theorem Meets.exists_ok (h : x.Meets (fun _ => False) P) : ∃ a, x = ok a ∧ P a := by
  cases x with
  | ok a => exact ⟨a, rfl, h⟩
  | error e => exact h.elim

theorem Meets.of_ok {a : α} (h : x.Meets E P) (ha : x = ok a) : P a := by
  rw [ha] at h
  exact h

end Except
