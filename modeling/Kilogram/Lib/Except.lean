import Mathlib.Tactic

/-!
# Inversion of fallible computations

A computation that succeeds has succeeded at every step.
-/

namespace Except
variable {ε α β : Type}

def failIf (c : Prop) [Decidable c] (e : ε) : Except ε Unit := if c then error e else ok ()

def ensure (c : Prop) [Decidable c] (e : ε) : Except ε Unit := failIf (¬ c) e

def okOr (o : Option α) (e : ε) : Except ε α :=
  match o with
  | some a => ok a
  | none => error e

variable {x : Except ε α} {f : α → Except ε β} {a : α} {l : List α} {bs : List β}

@[simp] theorem bind_eq_ok {b : β} : (x >>= f) = ok b ↔ ∃ a, x = ok a ∧ f a = ok b := by
  cases x with
  | error e | ok a => simp [bind, Except.bind]

theorem map_eq_ok {f : α → β} {b : β} : x.map f = ok b ↔ ∃ a, x = ok a ∧ f a = b := by
  cases x with
  | error e | ok a => simp [Except.map]

theorem bind_of_ok (h : x = ok a) (f : α → Except ε β) : (x >>= f) = f a := by
  rw [h]
  rfl

@[simp] theorem bind_eq_error {e : ε} : (x >>= f) = error e ↔ x = error e ∨ ∃ a, x = ok a ∧ f a = error e := by
  cases x with
  | error e | ok a => simp [bind, Except.bind]

@[simp] theorem pure_eq_ok {b : α} : (pure a : Except ε α) = ok b ↔ a = b := by
  simp [pure, Except.pure]

@[simp] theorem throw_ne_ok {e : ε} : (throw e : Except ε α) ≠ ok a := by
  simp [throw, throwThe, MonadExceptOf.throw]

@[simp] theorem failIf_eq_ok {c : Prop} [Decidable c] {e : ε} {u : Unit} : failIf c e = ok u ↔ ¬ c := by
  unfold failIf
  split <;> simp_all

@[simp] theorem ensure_eq_ok {c : Prop} [Decidable c] {e : ε} {u : Unit} : ensure c e = ok u ↔ c := by
  rw [ensure, failIf_eq_ok, not_not]

theorem ensure_of {c : Prop} [Decidable c] {e : ε} (h : c) : ensure c e = ok () := ensure_eq_ok.mpr h

theorem failIf_of_not {c : Prop} [Decidable c] (h : ¬ c) (e : ε) : failIf c e = ok () := if_neg h

@[simp] theorem failIf_eq_error {c : Prop} [Decidable c] {e e' : ε} : failIf c e = error e' ↔ c ∧ e = e' := by
  unfold failIf
  split <;> simp_all

@[simp] theorem okOr_eq_ok {o : Option α} {e : ε} : okOr o e = ok a ↔ o = some a := by
  cases o <;> simp [okOr]

/-- What a successful run says at its binds, returns and guards, for the simplifier. -/
theorem ok_iff : (∀ {ε α β : Type} {x : Except ε α} {f : α → Except ε β} {b : β},
      (x >>= f) = ok b ↔ ∃ a, x = ok a ∧ f a = ok b) ∧
    (∀ {ε α : Type} {a b : α}, (pure a : Except ε α) = ok b ↔ a = b) ∧
    (∀ {ε : Type} {c : Prop} [Decidable c] {e : ε} {u : Unit}, failIf c e = ok u ↔ ¬ c) ∧
    ∀ {ε α : Type} {o : Option α} {e : ε} {a : α}, okOr o e = ok a ↔ o = some a :=
  ⟨bind_eq_ok, pure_eq_ok, failIf_eq_ok, okOr_eq_ok⟩

theorem exists_of_isOk (h : x.isOk = true) : ∃ a, x = ok a := by
  cases x with
  | error e => cases h
  | ok a => exact ⟨a, rfl⟩

theorem exists_of_any {p : α → Bool} (h : x.toOption.any p = true) : ∃ a, x = ok a ∧ p a = true := by
  cases x with
  | error e => cases h
  | ok a => exact ⟨a, rfl, h⟩

theorem forM_eq_ok {γ : Type} {l : List γ} {f : γ → Except ε Unit} {u : Unit} :
    forM l f = ok u ↔ ∀ c ∈ l, f c = ok () := by
  induction l with
  | nil => simp [pure, Except.pure]
  | cons c l ih =>
    rw [List.forM_cons, bind_eq_ok, List.forall_mem_cons]
    constructor
    · rintro ⟨_, hc, hl⟩
      exact ⟨hc, ih.mp hl⟩
    · rintro ⟨hc, hl⟩
      exact ⟨_, hc, ih.mpr hl⟩

theorem mapM_eq_ok : l.mapM f = ok bs ↔ List.Forall₂ (fun a b => f a = ok b) l bs := by
  induction l generalizing bs with
  | nil =>
    rw [List.mapM_nil, pure_eq_ok, List.forall₂_nil_left_iff]
    exact eq_comm
  | cons x l ih =>
    simp only [List.mapM_cons, bind_eq_ok, pure_eq_ok, List.forall₂_cons_left_iff, ih]
    constructor
    · rintro ⟨b, hb, bs, hbs, rfl⟩
      exact ⟨b, bs, hb, hbs, rfl⟩
    · rintro ⟨b, bs, hb, hbs, rfl⟩
      exact ⟨b, hb, bs, hbs, rfl⟩

theorem exists_of_mapM (h : l.mapM f = ok bs) (ha : a ∈ l) : ∃ b ∈ bs, f a = ok b := by
  rw [mapM_eq_ok] at h
  induction h with
  | nil => simp at ha
  | cons hb _ ih =>
    rcases List.mem_cons.mp ha with rfl | ha
    · exact ⟨_, .head _, hb⟩
    · obtain ⟨b', hb', hfa⟩ := ih ha
      exact ⟨b', List.mem_cons_of_mem _ hb', hfa⟩

theorem mem_of_mapM (h : l.mapM f = ok bs) {b : β} : b ∈ bs ↔ ∃ a ∈ l, f a = ok b := by
  constructor
  · intro hb
    rw [mapM_eq_ok] at h
    induction h with
    | nil => simp at hb
    | cons ha _ ih =>
      rcases List.mem_cons.mp hb with rfl | hb
      · exact ⟨_, .head _, ha⟩
      · obtain ⟨a, hmem, ha⟩ := ih hb
        exact ⟨a, .tail _ hmem, ha⟩
  · rintro ⟨a, hmem, ha⟩
    obtain ⟨b', hb', hfa⟩ := exists_of_mapM h hmem
    exact ok.inj (ha.symm.trans hfa) ▸ hb'

theorem mapM_isOk (h : ∀ a ∈ l, ∃ b, f a = ok b) : ∃ bs, l.mapM f = ok bs := by
  induction l with
  | nil => exact ⟨[], rfl⟩
  | cons a l ih =>
    obtain ⟨b, hb⟩ := h a (.head _)
    obtain ⟨bs, hbs⟩ := ih fun x hx => h x (List.mem_cons_of_mem a hx)
    exact ⟨b :: bs, by rw [List.mapM_cons, bind_of_ok hb, bind_of_ok hbs]; rfl⟩

theorem map_of_mapM {γ : Type} {p : β → γ} {q : α → γ}
    (h : l.mapM f = ok bs) (hf : ∀ a ∈ l, ∀ b, f a = ok b → p b = q a) : bs.map p = l.map q := by
  rw [mapM_eq_ok] at h
  induction h with
  | nil => rfl
  | cons ha _ ih =>
    rw [List.map_cons, List.map_cons, hf _ (.head _) _ ha, ih fun a hmem => hf a (.tail _ hmem)]

theorem mapM_of_forall (g : α → β) (h : ∀ a ∈ l, f a = ok (g a)) : l.mapM f = ok (l.map g) := by
  rw [mapM_eq_ok, List.forall₂_map_right_iff]
  exact List.forall₂_same.mpr h

@[simp] theorem mapError_eq_ok {ε' : Type} {f : ε → ε'} : x.mapError f = ok a ↔ x = ok a := by
  cases x <;> simp [Except.mapError]

theorem toOption_bind (x : Except ε α) (f : α → Except ε β) :
    (x >>= f).toOption = x.toOption.bind fun a => (f a).toOption := by
  cases x <;> rfl

theorem toOption_eq {y : Except ε α} (h : ∀ a, x = ok a ↔ y = ok a) : x.toOption = y.toOption := by
  cases x with
  | ok a => rw [(h a).mp rfl]
  | error e =>
    cases y with
    | ok b => exact absurd ((h b).mpr rfl) (by simp)
    | error e' => rfl

/-- What every step of a successful fold preserves, the fold preserves. -/
theorem foldlM_invariant {f : β → α → Except ε β} (I : β → Prop)
    (step : ∀ b a c, a ∈ l → f b a = ok c → I b → I c) {b c : β} (h : l.foldlM f b = ok c)
    (hb : I b) : I c := by
  induction l generalizing b with
  | nil => exact pure_eq_ok.mp h ▸ hb
  | cons a l ih =>
    rw [List.foldlM_cons, bind_eq_ok] at h
    obtain ⟨d, hd, h⟩ := h
    refine ih (fun b x c hx => step b x c (List.mem_cons_of_mem a hx)) h ?_
    exact step b a d (.head _) hd hb

theorem forall_of_foldlM {f : β → α → Except ε β} {P : α → Prop}
    (step : ∀ b a c, f b a = ok c → P a) {b c : β} (h : l.foldlM f b = ok c) : ∀ a ∈ l, P a := by
  induction l generalizing b with
  | nil => simp
  | cons a l ih =>
    rw [List.foldlM_cons, bind_eq_ok] at h
    obtain ⟨d, hd, h⟩ := h
    rw [List.forall_mem_cons]
    exact ⟨step b a d hd, ih h⟩

section InPlace
variable {σ : Type} {k : ExceptT ε (StateM σ) Unit} {y : Except ε σ}

/-- Run on `s` in place, `k` leaves the state that `y` returns; where `y` fails, so does `k`, and the
state is still `s`. -/
def InPlace (k : ExceptT ε (StateM σ) Unit) (y : Except ε σ) (s : σ) : Prop :=
  (∀ t, y = ok t → k.run s = (ok (), t)) ∧ ∀ e, y = error e → k.run s = (error e, s)

theorem InPlace.set (s t : σ) : InPlace (MonadStateOf.set t) (pure t : Except ε σ) s := by
  refine ⟨fun _ h => ?_, nofun⟩
  cases h
  rfl

theorem InPlace.check {s : σ} (h : InPlace k y s) (x : Except ε Unit) : InPlace (do ofExcept x; k) (do x; y) s := by
  cases x with
  | ok _ => exact h
  | error e =>
    refine ⟨nofun, fun _ h => ?_⟩
    cases h
    rfl

end InPlace
end Except
