import Mathlib.Tactic

/-!
# Objects as terms

A digest that never collides can be taken for the object itself, written as a term.
-/

inductive Term where
  | atom (n : Nat)
  | pair (a b : Term)
  deriving DecidableEq

class Coded (α : Type) where
  code : α → Term
  code_injective : Function.Injective code

namespace Coded
variable {α β : Type}

@[reducible] def ofInjective [Coded β] (f : α → β) (hf : Function.Injective f) : Coded α where
  code a := code (f a)
  code_injective := code_injective.comp hf

/-- A structure is determined by its fields. -/
@[reducible] def ofFields [Coded β] (f : α → β)
    (hf : Function.Injective f := by rintro ⟨⟩ ⟨⟩ h; simpa using h) : Coded α := ofInjective f hf

instance : Coded Term := ⟨id, Function.injective_id⟩
instance : Coded Nat := ⟨Term.atom, fun _ _ h => Term.atom.inj h⟩
instance : Coded UInt8 := ofInjective UInt8.toNat fun _ _ h => UInt8.toNat.inj h
instance {w : Nat} : Coded (BitVec w) := ofInjective BitVec.toNat fun _ _ h => BitVec.eq_of_toNat_eq h

instance [Coded α] [Coded β] : Coded (α × β) where
  code p := .pair (code p.1) (code p.2)
  code_injective := by
    intro p q h
    obtain ⟨ha, hb⟩ := Term.pair.inj h
    exact Prod.ext (code_injective ha) (code_injective hb)

def codeList [Coded α] : List α → Term
  | [] => .atom 0
  | a :: l => .pair (code a) (codeList l)

theorem codeList_injective [Coded α] : Function.Injective (codeList (α := α)) := by
  intro l m h
  induction l generalizing m with
  | nil =>
    cases m with
    | nil => rfl
    | cons b m => exact absurd h (by simp [codeList])
  | cons a l ih =>
    cases m with
    | nil => exact absurd h (by simp [codeList])
    | cons b m =>
      obtain ⟨ha, hl⟩ := Term.pair.inj h
      rw [code_injective ha, ih hl]

instance [Coded α] : Coded (List α) := ⟨codeList, codeList_injective⟩

end Coded
