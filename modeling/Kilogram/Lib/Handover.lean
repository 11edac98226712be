import Kilogram.Lib.Service
import Kilogram.Lib.Sweep

/-!
# Handing entries over

An entry is entered in a first table and later handed over to a second one under the same key; no key is
in both.
-/

namespace Handover
open Std

inductive Place (α β : Type) where
  | absent
  | first (a : α)
  | second (b : β)

namespace Place
variable {α β : Type}

/-- What is known in each of the three places. -/
def Holds (Z : Prop) (A : α → Prop) (B : β → Prop) : Place α β → Prop
  | .absent => Z
  | .first a => A a
  | .second b => B b

variable {A : α → Prop} {B : β → Prop} {p : Place α β}

theorem Holds.mono {Z : Prop} {A' : α → Prop} {B' : β → Prop} (h : p.Holds Z A B)
    (hA : ∀ a, A a → A' a) (hB : ∀ b, B b → B' b) : p.Holds Z A' B' := by
  cases p with
  | absent => exact h
  | first a => exact hA a h
  | second b => exact hB b h

theorem Holds.unless {C : Prop} (h : C → p.Holds True (fun a => ¬ A a) fun b => ¬ B b) :
    p.Holds True (fun a => ¬ (C ∧ A a)) fun b => ¬ (C ∧ B b) := by
  cases p with
  | absent => trivial
  | first a | second b => exact fun hgone => h hgone.1 hgone.2

end Place

/-- What may enter, as what it may be handed over, and what may leave. -/
structure Rules (α β : Type) where
  enters : α → Prop
  passes : α → β → Prop
  leavesFirst : α → Prop
  leavesSecond : β → Prop

inductive Moves {α β : Type} (R : Rules α β) : Place α β → Place α β → Prop
  | stays (p : Place α β) : Moves R p p
  | enters {a : α} (h : R.enters a) : Moves R .absent (.first a)
  | passes {a : α} {b : β} (h : R.passes a b) : Moves R (.first a) (.second b)
  | leavesFirst {a : α} (h : R.leavesFirst a) : Moves R (.first a) .absent
  | leavesSecond {b : β} (h : R.leavesSecond b) : Moves R (.second b) .absent

/-- What is known goes on holding if what enters has it, what is handed over keeps it, and what leaves
may leave. -/
theorem Moves.holds {α β : Type} {R : Rules α β} {p q : Place α β} {Z : Prop} {A : α → Prop}
    {B : β → Prop} (h : Moves R p q) (henters : Z → ∀ a, R.enters a → A a)
    (hpasses : ∀ a b, R.passes a b → A a → B b) (hfirst : ∀ a, p = .first a → R.leavesFirst a → Z)
    (hsecond : ∀ b, p = .second b → R.leavesSecond b → Z) (hp : p.Holds Z A B) : q.Holds Z A B := by
  cases h with
  | stays => exact hp
  | enters h => exact henters hp _ h
  | passes h => exact hpasses _ _ h hp
  | leavesFirst h => exact hfirst _ rfl h
  | leavesSecond h => exact hsecond _ rfl h

/-- What is known of a key of a service goes on holding while nothing of it may leave. -/
theorem holds_since {σ κ ρ α β : Type} {S : Service σ κ ρ} {w : σ → Place α β} {R : κ → Rules α β}
    {A : α → Prop} {B : β → Prop} {before later : List κ}
    (hmoves : ∀ calls call, Moves (R call) (w (S.after calls)) (w (S.serve call (S.after calls)).2))
    (hpasses : ∀ call a b, (R call).passes a b → A a → B b)
    (hstay : ∀ mid call rest, later = mid ++ call :: rest → (w (S.after (before ++ mid))).Holds True
      (fun a => ¬ (R call).leavesFirst a) fun b => ¬ (R call).leavesSecond b)
    (h : (w (S.after before)).Holds False A B) : (w (S.after (before ++ later))).Holds False A B := by
  refine Service.since (I := fun t => (w t).Holds False A B) h fun mid call rest hsplit hmid => ?_
  have hleaves := hstay mid call rest hsplit
  refine (hmoves _ call).holds (fun h => h.elim) (hpasses call) (fun a ha => ?_) (fun b hb => ?_) hmid
  · rw [ha] at hleaves
    exact hleaves
  · rw [hb] at hleaves
    exact hleaves

/-- Of a key of a service that starts with nothing, what is known of the calls that entered it is known
wherever it is. -/
theorem holds_history {σ κ ρ α β : Type} {S : Service σ κ ρ} {w : σ → Place α β} {R : κ → Rules α β}
    {A : List κ → α → Prop} {B : List κ → β → Prop} (hstart : w S.start = .absent)
    (hmoves : ∀ calls call, Moves (R call) (w (S.after calls)) (w (S.serve call (S.after calls)).2))
    (hA : ∀ calls call a, A calls a → A (calls ++ [call]) a)
    (hB : ∀ calls call b, B calls b → B (calls ++ [call]) b)
    (henters : ∀ calls call a, w (S.after calls) ≠ w (S.serve call (S.after calls)).2 →
      (R call).enters a → A (calls ++ [call]) a)
    (hpasses : ∀ calls call a b, (R call).passes a b → A calls a → B calls b) (calls : List κ) :
    (w (S.after calls)).Holds True (A calls) (B calls) := by
  refine Service.history (I := fun calls t => (w t).Holds True (A calls) (B calls)) ?_ ?_ calls
  · rw [hstart]
    trivial
  · intro calls call h
    have hold := h.mono (hA calls call) (hB calls call)
    by_cases hsame : w (S.after calls) = w (S.serve call (S.after calls)).2
    · rw [← hsame]
      exact hold
    · exact (hmoves calls call).holds (fun _ a ha => henters calls call a hsame ha) (hpasses _ call)
        (fun _ _ _ => trivial) (fun _ _ _ => trivial) hold

section
variable {κ α β : Type} [Ord κ]

def place (first : TreeMap κ α) (second : TreeMap κ β) (k : κ) : Place α β :=
  match second[k]?, first[k]? with
  | some b, _ => .second b
  | none, some a => .first a
  | none, none => .absent

/-- No key is in both tables. -/
def Exclusive (first : TreeMap κ α) (second : TreeMap κ β) : Prop := ∀ k : κ, first[k]? = none ∨ second[k]? = none

variable {first first' : TreeMap κ α} {second second' : TreeMap κ β} {k : κ} {a : α} {b : β}

theorem place_eq_second : place first second k = .second b ↔ second[k]? = some b := by
  unfold place
  cases second[k]? <;> cases first[k]? <;> simp

theorem place_eq_first : place first second k = .first a ↔ second[k]? = none ∧ first[k]? = some a := by
  unfold place
  cases second[k]? <;> cases first[k]? <;> simp

theorem place_eq_absent : place first second k = .absent ↔ second[k]? = none ∧ first[k]? = none := by
  unfold place
  cases second[k]? <;> cases first[k]? <;> simp

theorem place_congr (hfirst : first'[k]? = first[k]?) (hsecond : second'[k]? = second[k]?) :
    place first' second' k = place first second k := by
  unfold place
  rw [hfirst, hsecond]

variable {A : α → Prop} {B : β → Prop}

theorem holds_of_first {Z : Prop} (hsecond : second[k]? = none)
    (hfirst : first[k]? = some a) (ha : A a) : (place first second k).Holds Z A B := by
  rw [place_eq_first.mpr ⟨hsecond, hfirst⟩]
  exact ha

theorem holds_of_second {Z : Prop} (hsecond : second[k]? = some b)
    (hb : B b) : (place first second k).Holds Z A B := by
  rw [place_eq_second.mpr hsecond]
  exact hb

theorem cases_of_holds (h : (place first second k).Holds False A B) :
    (∃ a, second[k]? = none ∧ first[k]? = some a ∧ A a) ∨ ∃ b, second[k]? = some b ∧ B b := by
  cases hplace : place first second k with
  | absent =>
    rw [hplace] at h
    exact h.elim
  | first a =>
    rw [hplace] at h
    obtain ⟨hsecond, hfirst⟩ := place_eq_first.mp hplace
    exact .inl ⟨a, hsecond, hfirst, h⟩
  | second b =>
    rw [hplace] at h
    exact .inr ⟨b, place_eq_second.mp hplace, h⟩

theorem Exclusive.place_of_first (h : Exclusive first second) (ha : first[k]? = some a) :
    place first second k = .first a := by
  refine place_eq_first.mpr ⟨(h k).resolve_left ?_, ha⟩
  rw [ha]
  exact Option.some_ne_none a

theorem Exclusive.first_of_second (h : Exclusive first second) (hb : second[k]? = some b) : first[k]? = none := by
  refine (h k).resolve_right ?_
  rw [hb]
  exact Option.some_ne_none b

theorem Exclusive.sub (h : Exclusive first second)
    (hfirst : ∀ (k : κ) (a : α), first'[k]? = some a → first[k]? = some a)
    (hsecond : ∀ (k : κ) (b : β), second'[k]? = some b → second[k]? = some b) :
    Exclusive first' second' := by
  intro k
  rcases h k with hk | hk
  · left
    cases hk' : first'[k]? with
    | none => rfl
    | some a => cases hk.symm.trans (hfirst k a hk')
  · right
    cases hk' : second'[k]? with
    | none => rfl
    | some b => cases hk.symm.trans (hsecond k b hk')

variable [TransOrd κ] [LawfulEqOrd κ] [DecidableEq κ]

theorem Exclusive.enter (h : Exclusive first second) (hk : second[k]? = none) (a : α) :
    Exclusive (first.insert k a) second := by
  intro j
  rw [Maps.get_insert]
  split_ifs with hj
  · exact .inr (hj ▸ hk)
  · exact h j

theorem Exclusive.pass (h : Exclusive first second) (k : κ) (b : β) :
    Exclusive (first.erase k) (second.insert k b) := by
  intro j
  rw [Maps.get_erase, Maps.get_insert]
  split_ifs with hj
  · exact .inl rfl
  · exact h j

variable {R : Rules α β}

theorem moves_enter (hsecond : second[k]? = none) (hfirst : first[k]? = none) (j : κ) (ha : k = j → R.enters a) :
    Moves R (place first second j) (place (first.insert k a) second j) := by
  by_cases hj : k = j
  · subst hj
    rw [place_eq_absent.mpr ⟨hsecond, hfirst⟩, place_eq_first.mpr ⟨hsecond, by rw [Maps.get_insert, if_pos rfl]⟩]
    exact .enters (ha rfl)
  · rw [place_congr (Maps.get_insert_of_ne first a (Ne.symm hj)) rfl]
    exact .stays _

theorem moves_pass (h : Exclusive first second) (hfirst : first[k]? = some a) (hb : R.passes a b) (j : κ) :
    Moves R (place first second j) (place (first.erase k) (second.insert k b) j) := by
  by_cases hj : k = j
  · subst hj
    rw [h.place_of_first hfirst, place_eq_second.mpr (by rw [Maps.get_insert, if_pos rfl])]
    exact .passes hb
  · have hold : (first.erase k)[j]? = first[j]? := (Maps.get_erase first k j).trans (if_neg hj)
    rw [place_congr hold (Maps.get_insert_of_ne second b (Ne.symm hj))]
    exact .stays _

theorem moves_swept {ε : Type} {expired : κ → α → Except ε Bool} {expired' : κ → β → Except ε Bool}
    {keys keys' : List κ} (h : Exclusive first second) (hfirst : Maps.sweep expired first = .ok keys)
    (hsecond : Maps.sweep expired' second = .ok keys')
    (hleaves : ∀ a, expired k a = .ok true → R.leavesFirst a)
    (hleaves' : ∀ b, expired' k b = .ok true → R.leavesSecond b) :
    Moves R (place first second k) (place (Maps.removeAll first keys) (Maps.removeAll second keys') k) := by
  have hget := Maps.get_removeAll first keys k
  have hget' := Maps.get_removeAll second keys' k
  cases hb : second[k]? with
  | some b =>
    rw [place_eq_second.mpr hb]
    have hnone : (Maps.removeAll first keys)[k]? = none := by
      rw [hget, h.first_of_second hb, ite_self]
    by_cases hk : k ∈ keys'
    · obtain ⟨b', hb', hgone⟩ := (Maps.mem_sweep hsecond k).mp hk
      cases hb'.symm.trans hb
      rw [place_eq_absent.mpr ⟨hget'.trans (if_pos hk), hnone⟩]
      exact .leavesSecond (hleaves' _ hgone)
    · rw [place_eq_second.mpr ((hget'.trans (if_neg hk)).trans hb)]
      exact .stays _
  | none =>
    have hnone : (Maps.removeAll second keys')[k]? = none := by rw [hget', hb, ite_self]
    by_cases hk : k ∈ keys
    · obtain ⟨a, ha, hgone⟩ := (Maps.mem_sweep hfirst k).mp hk
      rw [place_eq_first.mpr ⟨hb, ha⟩, place_eq_absent.mpr ⟨hnone, hget.trans (if_pos hk)⟩]
      exact .leavesFirst (hleaves a hgone)
    · rw [place_congr (hget.trans (if_neg hk)) (hnone.trans hb.symm)]
      exact .stays _

end
end Handover
