import Kilogram.Lib.Except

/-!
# Fallible computations that count their lookups

A counted computation fails, or gives a result and the number of lookups it made.
-/

def Counted (ε α : Type) : Type := Except ε (α × Nat)

namespace Counted
variable {ε α β : Type}

instance : Monad (Counted ε) where
  pure a := Except.ok (a, 0)
  bind x f :=
    match x with
    | .error e => .error e
    | .ok (a, m) =>
      match f a with
      | .error e => .error e
      | .ok (b, n) => .ok (b, m + n)

def lift (x : Except ε α) : Counted ε α :=
  match x with
  | .error e => .error e
  | .ok a => .ok (a, 0)

def tick (x : Except ε α) : Counted ε α :=
  match x with
  | .error e => .error e
  | .ok a => .ok (a, 1)

def failIf (c : Prop) [Decidable c] (e : ε) : Counted ε Unit := lift (Except.failIf c e)
def okOr (o : Option α) (e : ε) : Counted ε α := lift (Except.okOr o e)
def fail (e : ε) : Counted ε α := Except.error e

def value (x : Counted ε α) : Except ε α :=
  match x with
  | .error e => .error e
  | .ok (a, _) => .ok a

@[simp] theorem value_bind (x : Counted ε α) (f : α → Counted ε β) :
    (x >>= f).value = x.value >>= fun a => (f a).value := by
  rcases x with e | ⟨a, m⟩
  · rfl
  · change Counted.value (match f a with
      | .error e => .error e
      | .ok (b, n) => .ok (b, m + n)) = (f a).value
    rcases f a with e | ⟨b, n⟩
    · rfl
    · rfl

@[simp] theorem value_lift (x : Except ε α) : (lift x).value = x := by
  cases x <;> rfl

@[simp] theorem value_tick (x : Except ε α) : (tick x).value = x := by
  cases x <;> rfl

@[simp] theorem value_okOr (o : Option α) (e : ε) : (okOr o e).value = Except.okOr o e :=
  value_lift _

end Counted
