import Kilogram.Lib.Radix

/-!
# Radix trees laid out in a memory

A memory maps entrances (a prefix and its length) to nodes. A tree entered at `(p, n)` owns every
entrance that extends `(p, n)`: its nodes stand at their entrances and the rest of the region is empty.
-/

namespace Radix
variable {w : Nat} {α β : Type}

/-- The entrance `e` extends the entrance `(p, n)`. -/
def Below (p : BitVec w) (n : Nat) (e : BitVec w × Nat) : Prop := n ≤ e.2 ∧ cut e.1 n = p

/-- A memory of nodes by entrance. -/
abbrev Memory (w : Nat) (β : Type) := BitVec w × Nat → Option β

variable {p q : BitVec w} {b : Nat} {e : BitVec w × Nat}

theorem Below.trans {n : Nat} (h : Below q b e) (hn : n ≤ b) (hq : cut q n = p) : Below p n e := by
  refine ⟨hn.trans h.1, ?_⟩
  rw [← hq, ← h.2, cut_cut, Nat.min_eq_right hn]

theorem below_child_iff (hb : b < w) (hq : cut q b = q) (side : Bool) (e : BitVec w × Nat) :
    Below (child q b side).1 (b + 1) e ↔ b < e.2 ∧ cut e.1 b = q ∧ e.1.getMsbD b = side := by
  rw [Below, Trie.cut_succ_eq_child hb hq side, Nat.succ_le_iff]

theorem not_below_both (hb : b < w) (hq : cut q b = q) {s : Bool} (h : Below (child q b s).1 (b + 1) e) :
    ¬ Below (child q b !s).1 (b + 1) e := by
  intro h'
  have h1 := ((below_child_iff hb hq s e).mp h).2.2
  have h2 := ((below_child_iff hb hq (!s) e).mp h').2.2
  rw [h1] at h2
  cases s <;> cases h2

theorem below_child_self (hb : b < w) (hq : cut q b = q) (side : Bool) :
    Below (child q b side).1 (b + 1) (child q b side) := by
  rw [below_child_iff hb hq]
  refine ⟨Nat.lt_succ_self b, ?_⟩
  cases side with
  | false => exact ⟨hq, Trie.getMsbD_of_cut_eq hq⟩
  | true =>
    refine ⟨(Trie.cut_mark hb).trans hq, ?_⟩
    simp [child, getMsbD_mark q b b hb]

theorem not_below_top {n : Nat} (hn : n ≤ b) : ¬ Below q (b + 1) (p, n) := fun h => absurd h.1 (by simp only; omega)

namespace Trie

/-- The memory holds nothing at or below `(p, n)`. -/
def Empty (m : Memory w β) (p : BitVec w) (n : Nat) : Prop := ∀ e, Below p n e → m e = none

/-- The memory holds exactly this tree at or below `(p, n)`. -/
def Lays (node : Trie w α → β) (m : Memory w β) : BitVec w → Nat → Trie w α → Prop
  | p, n, leaf key value => m (p, n) = some (node (leaf key value)) ∧ ∀ e, Below p n e → e ≠ (p, n) → m e = none
  | p, n, branch q b l r => m (p, n) = some (node (branch q b l r)) ∧
      Lays node m q (b + 1) l ∧ Lays node m (mark q b) (b + 1) r ∧
      ∀ e, Below p n e → e ≠ (p, n) → ¬ Below q (b + 1) e → ¬ Below (mark q b) (b + 1) e → m e = none

/-- The memory holds an optional tree at or below `(p, n)`. -/
def LaysOption (node : Trie w α → β) (m : Memory w β) (p : BitVec w) (n : Nat) : Option (Trie w α) → Prop
  | none => Empty m p n
  | some t => Lays node m p n t

variable {node : Trie w α → β} {m m' : Memory w β} {p q : BitVec w} {n b : Nat} {l r t : Trie w α}

theorem Lays.top (h : Lays node m p n t) : m (p, n) = some (node t) := by
  cases t with
  | leaf key value => exact h.1
  | branch q b l r => exact h.1

theorem Lays.side (h : Lays node m p n (branch q b l r)) (side : Bool) :
    Lays node m (child q b side).1 (b + 1) (if side then r else l) := by
  cases side with
  | false => exact h.2.1
  | true => exact h.2.2.1

theorem Lays.congr (hv : t.Valid p n) (h : Lays node m p n t)
    (heq : ∀ e, Below p n e → m' e = m e) : Lays node m' p n t := by
  induction t generalizing p n with
  | leaf key value =>
    refine ⟨?_, fun e he hne => (heq e he).trans (h.2 e he hne)⟩
    rw [heq (p, n) ⟨le_refl n, hv.cut_entrance⟩, h.1]
  | branch q b l r ihl ihr =>
    have htop : Below p n (p, n) := ⟨le_refl n, hv.cut_entrance⟩
    obtain ⟨hnb, hb, hqn, hq, hl, hr⟩ := hv
    have hdown : ∀ side e, Below (child q b side).1 (b + 1) e → Below p n e := by
      intro side e he
      have hs := (below_child_iff hb hq side e).mp he
      exact Below.trans ⟨hs.1.le, hs.2.1⟩ hnb hqn
    refine ⟨(heq _ htop).trans h.1, ihl hl h.2.1 fun e he => heq e (hdown false e he),
      ihr hr h.2.2.1 fun e he => heq e (hdown true e he), ?_⟩
    intro e he hne h1 h2
    exact (heq e he).trans (h.2.2.2 e he hne h1 h2)

variable {x : Trie w α} {i : Memory w β} {e : BitVec w × Nat}

theorem lays_branch {s : Bool} {y : Trie w α}
    (htop : m (p, n) = some (node (branch q b (if s then y else x) (if s then x else y))))
    (hx : Lays node m (child q b s).1 (b + 1) x) (hy : Lays node m (child q b !s).1 (b + 1) y)
    (hgap : ∀ e, Below p n e → e ≠ (p, n) → ¬ Below (child q b s).1 (b + 1) e →
      ¬ Below (child q b !s).1 (b + 1) e → m e = none) :
    Lays node m p n (branch q b (if s then y else x) (if s then x else y)) := by
  cases s with
  | false => exact ⟨htop, hx, hy, hgap⟩
  | true => exact ⟨htop, hy, hx, fun e he hne h1 h2 => hgap e he hne h2 h1⟩

/-- Replacing one side of a branch and rewriting its top replaces that side of the tree. -/
theorem Lays.replace (hv : (branch q b l r).Valid p n) (h : Lays node m p n (branch q b l r)) (side : Bool)
    (hxv : x.Valid (child q b side).1 (b + 1)) (hx : Lays node i (child q b side).1 (b + 1) x)
    (hframe : ∀ e, ¬ Below (child q b side).1 (b + 1) e → i e = m e)
    (htop : m' (p, n) = some (node (branch q b (if side then l else x) (if side then x else r))))
    (hrest : ∀ e, e ≠ (p, n) → m' e = i e) :
    Lays node m' p n (branch q b (if side then l else x) (if side then x else r)) := by
  obtain ⟨hnb, hb, hqn, hq, hl, hr⟩ := hv
  have hbelow : ∀ s e, Below (child q b s).1 (b + 1) e → e ≠ (p, n) := by
    rintro s e he rfl
    exact not_below_top hnb he
  have hx' : Lays node m' (child q b side).1 (b + 1) x := hx.congr hxv fun e he => hrest e (hbelow side e he)
  have hother : ∀ e, Below (child q b !side).1 (b + 1) e → m' e = m e := by
    intro e he
    rw [hrest e (hbelow _ e he), hframe e]
    simpa only [Bool.not_not] using not_below_both hb hq he
  have hgap : ∀ e, Below p n e → e ≠ (p, n) → ¬ Below (child q b side).1 (b + 1) e →
      ¬ Below (child q b !side).1 (b + 1) e → m' e = none := by
    intro e he hne h1 h2
    rw [hrest e hne, hframe e h1]
    cases side with
    | false => exact h.2.2.2 e he hne h1 h2
    | true => exact h.2.2.2 e he hne h2 h1
  cases side with
  | false => exact lays_branch (s := false) htop hx' (h.2.2.1.congr hr hother) hgap
  | true => exact lays_branch (s := true) htop hx' (h.2.1.congr hl hother) hgap

/-- The entrance `e` lies under the top node of `t`, wherever that node is entered. -/
def Inside (t : Trie w α) (e : BitVec w × Nat) : Prop := t.bits < e.2 ∧ cut e.1 t.bits = t.pfx

theorem Lays.outside (hv : t.Valid p n) (h : Lays node m p n t)
    (he : Below p n e) (hne : e ≠ (p, n)) (hout : ¬ t.Inside e) : m e = none := by
  cases t with
  | leaf key value => exact h.2 e he hne
  | branch q b l r =>
    obtain ⟨_, hb, _, hq, _, _⟩ := hv
    have hside : ∀ side, ¬ Below (child q b side).1 (b + 1) e := by
      intro side hs
      have := (below_child_iff hb hq side e).mp hs
      exact hout ⟨this.1, this.2.1⟩
    exact h.2.2.2 e he hne (hside false) (hside true)

theorem Lays.reenter {p' : BitVec w} {n' : Nat} (hv : t.Valid p n) (hv' : t.Valid p' n')
    (h : Lays node m p n t) (htop : m' (p', n') = some (node t))
    (hin : ∀ e, t.Inside e → m' e = m e)
    (hout : ∀ e, Below p' n' e → e ≠ (p', n') → ¬ t.Inside e → m' e = none) :
    Lays node m' p' n' t := by
  cases t with
  | leaf key value =>
    refine ⟨htop, fun e he hne => ?_⟩
    by_cases hi : (leaf key value).Inside e
    · have hbelow : Below p n e := by
        refine Below.trans ⟨hi.1.le, hi.2⟩ hv.1 hv.2
      have hne' : e ≠ (p, n) := by
        rintro rfl
        exact absurd hi.1 (Nat.not_lt.mpr hv.1)
      rw [hin e hi, h.2 e hbelow hne']
    · exact hout e he hne hi
  | branch q b l r =>
    obtain ⟨_, hb, _, hq, hl, hr⟩ := hv
    have hside : ∀ side e, Below (child q b side).1 (b + 1) e → m' e = m e := by
      intro side e he
      have := (below_child_iff hb hq side e).mp he
      exact hin e ⟨this.1, this.2.1⟩
    refine ⟨htop, h.2.1.congr hl (hside false), h.2.2.1.congr hr (hside true), ?_⟩
    intro e he hne h1 h2
    refine hout e he hne ?_
    intro hi
    -- the bit of `e` at the branch decides the side it is under
    cases hbit : e.1.getMsbD b with
    | false => exact h1 ((below_child_iff hb hq false e).mpr ⟨hi.1, hi.2, hbit⟩)
    | true => exact h2 ((below_child_iff hb hq true e).mpr ⟨hi.1, hi.2, hbit⟩)

/-- A branch that lost one side is replaced by the other, moved up to its entrance. -/
theorem Lays.promote (hv : (branch q b l r).Valid p n)
    (h : Lays node m p n (branch q b l r)) (side : Bool) (hempty : Empty i (child q b side).1 (b + 1))
    (hframe : ∀ e, ¬ Below (child q b side).1 (b + 1) e → i e = m e)
    (htop : m' (p, n) = some (node (if side then l else r))) (hgone : m' (child q b !side) = none)
    (hrest : ∀ e, e ≠ (p, n) → e ≠ child q b !side → m' e = i e) :
    Lays node m' p n (if side then l else r) := by
  have hlay := h.side (!side)
  obtain ⟨hnb, hb, hqn, hq, hl, hr⟩ := hv
  have hstay : (if (!side) = true then r else l).Valid (child q b !side).1 (b + 1) := by
    cases side with
    | false => exact hr
    | true => exact hl
  have hflip : (if (!side) = true then r else l) = if side = true then l else r := by
    cases side <;> rfl
  rw [hflip] at hlay hstay
  generalize hs : (if side = true then l else r) = s at *
  have hdepth := hstay.bits_le
  have hsq : cut s.pfx b = q := by
    have := (cut_succ_eq_child (k := s.pfx) hb hq (!side)).mp hstay.cut_pfx
    exact this.1
  have hval : s.Valid p n := by
    have hcut : cut s.pfx n = p := by rw [← hqn, ← hsq, cut_cut, Nat.min_eq_right hnb]
    exact hcut ▸ hstay.at_depth (by omega)
  have hother : ∀ e, e ≠ (p, n) → e ≠ child q b !side → ¬ Below (child q b side).1 (b + 1) e →
      m' e = m e := fun e h1 h2 h3 => (hrest e h1 h2).trans (hframe e h3)
  have hnot : ∀ e, Below (child q b !side).1 (b + 1) e → ¬ Below (child q b side).1 (b + 1) e := by
    intro e he
    simpa only [Bool.not_not] using not_below_both hb hq he
  refine hlay.reenter hstay hval htop ?_ ?_
  · intro e hi
    have hlt := hi.1
    have hne : e ≠ (p, n) := by
      rintro rfl
      simp only at hlt
      omega
    have hne' : e ≠ child q b !side := by
      rintro rfl
      change s.bits < b + 1 at hlt
      omega
    exact hother e hne hne' (hnot e (Below.trans ⟨hlt.le, hi.2⟩ hdepth.1 hstay.cut_pfx))
  · intro e he hne hi
    by_cases h1 : e = child q b !side
    · rw [h1, hgone]
    by_cases h2 : Below (child q b side).1 (b + 1) e
    · rw [hrest e hne h1, hempty e h2]
    rw [hother e hne h1 h2]
    by_cases h3 : Below (child q b !side).1 (b + 1) e
    · exact hlay.outside hstay h3 h1 hi
    · cases side with
      | false => exact h.2.2.2 e he hne h2 h3
      | true => exact h.2.2.2 e he hne h3 h2

/-- Splitting the edge above a tree hangs the old tree and the new leaf below the new branch. -/
theorem Lays.join {k : BitVec w} {v : α} {c : Nat} (hv : t.Valid p n) (h : Lays node m p n t)
    (hc : c = min (agree t.pfx k) t.bits) (hlt : c < t.bits) (hnc : n ≤ c) (hk : cut k n = p)
    (htop : m' (p, n) = some (node (Trie.join k v c t)))
    (hleaf : m' (child (cut k c) c (k.getMsbD c)) = some (node (leaf k v)))
    (hold : m' (child (cut k c) c !(k.getMsbD c)) = some (node t))
    (hrest : ∀ e, e ≠ (p, n) → e ≠ child (cut k c) c (k.getMsbD c) →
      e ≠ child (cut k c) c !(k.getMsbD c) → m' e = m e) :
    Lays node m' p n (Trie.join k v c t) := by
  have hbits := hv.bits_le
  have hcw : c < w := by omega
  have hq : cut (cut k c) c = cut k c := by rw [cut_cut, Nat.min_self]
  have hqp : cut (cut k c) n = p := by rw [cut_cut, Nat.min_eq_right hnc, hk]
  -- below the split, the old tree is on the other side of the new leaf
  have hpk : cut t.pfx c = cut k c := cut_of_cut_eq (cut_agree t.pfx k) (by omega)
  have hbit : t.pfx.getMsbD c = !(k.getMsbD c) := by
    rw [hc]
    exact getMsbD_agree_pfx (hc ▸ hlt) hbits.2
  have hside : cut t.pfx (c + 1) = (child (cut k c) c !(k.getMsbD c)).1 :=
    (cut_succ_eq_child hcw hq _).mpr ⟨hpk, hbit⟩
  have hinside : ∀ e, t.Inside e → Below (child (cut k c) c !(k.getMsbD c)).1 (c + 1) e := by
    intro e hi
    exact Below.trans ⟨hi.1.le, hi.2⟩ hlt hside
  have hup : ∀ s e, Below (child (cut k c) c s).1 (c + 1) e → Below p n e := by
    intro s e he
    have := (below_child_iff hcw hq s e).mp he
    exact Below.trans ⟨this.1.le, this.2.1⟩ hnc hqp
  have hdeep : ∀ s e, Below (child (cut k c) c s).1 (c + 1) e → e ≠ (p, n) := by
    rintro s e he rfl
    exact not_below_top hnc he
  have hkeep : ∀ s e, Below (child (cut k c) c s).1 (c + 1) e → e ≠ child (cut k c) c s → m' e = m e := by
    intro s e he hne
    have hne' : e ≠ child (cut k c) c !s := by
      rintro rfl
      exact not_below_both hcw hq he (below_child_self hcw hq !s)
    rcases Bool.eq_or_eq_not s (k.getMsbD c) with rfl | rfl
    · exact hrest e (hdeep _ e he) hne hne'
    · rw [Bool.not_not] at hne'
      exact hrest e (hdeep _ e he) hne' hne
  have hnew : Lays node m' (child (cut k c) c (k.getMsbD c)).1 (c + 1) (leaf k v) := by
    refine ⟨hleaf, fun e he hne => ?_⟩
    rw [hkeep _ e he hne]
    exact h.outside hv (hup _ e he) (hdeep _ e he) fun hi => not_below_both hcw hq he (hinside e hi)
  have hmoved : Lays node m' (child (cut k c) c !(k.getMsbD c)).1 (c + 1) t := by
    refine h.reenter hv (hside ▸ hv.at_depth hlt) hold ?_ ?_
    · intro e hi
      refine hkeep _ e (hinside e hi) ?_
      rintro rfl
      exact absurd hi.1 (Nat.not_lt.mpr hlt)
    · intro e he hne hi
      rw [hkeep _ e he hne, h.outside hv (hup _ e he) (hdeep _ e he) hi]
  have hjoin : Trie.join k v c t = branch (cut k c) c (if k.getMsbD c then t else leaf k v)
      (if k.getMsbD c then leaf k v else t) := by
    unfold Trie.join
    split <;> rfl
  rw [hjoin] at htop ⊢
  refine lays_branch htop hnew hmoved ?_
  intro e he hne h1 h2
  rw [hrest e hne (fun heq => h1 (heq ▸ below_child_self hcw hq _)) (fun heq => h2 (heq ▸ below_child_self hcw hq _))]
  exact h.outside hv he hne fun hi => h2 (hinside e hi)

theorem Lays.ne_none_iff (hv : t.Valid p n) (h : Lays node m p n t)
    (he : Below p n e) : m e ≠ none ↔ e ∈ (p, n) :: t.inner := by
  induction t generalizing p n with
  | leaf key value =>
    by_cases htop : e = (p, n)
    · subst htop
      simp [h.1]
    · simp [h.2 e he htop, htop, inner]
  | branch q b l r ihl ihr =>
    by_cases htop : e = (p, n)
    · subst htop
      simp [h.1]
    obtain ⟨_, hb, _, hq, hl, hr⟩ := hv
    have hleft : e ∈ (q, b + 1) :: l.inner → Below (child q b false).1 (b + 1) e :=
      fun hm => ⟨(hl.entrance_below hm).1, (hl.entrance_below hm).2.2.1⟩
    have hright : e ∈ (mark q b, b + 1) :: r.inner → Below (child q b true).1 (b + 1) e :=
      fun hm => ⟨(hr.entrance_below hm).1, (hr.entrance_below hm).2.2.1⟩
    rw [inner, List.mem_cons, or_iff_right htop, List.mem_append]
    by_cases h1 : Below (child q b false).1 (b + 1) e
    · rw [ihl hl h.2.1 h1, or_iff_left fun hm => not_below_both hb hq h1 (hright hm)]
    by_cases h2 : Below (child q b true).1 (b + 1) e
    · rw [ihr hr h.2.2.1 h2, or_iff_right fun hm => h1 (hleft hm)]
    · rw [h.2.2.2 e he htop h1 h2]
      simp only [ne_eq, not_true_eq_false, false_iff, not_or]
      exact ⟨fun hm => h1 (hleft hm), fun hm => h2 (hright hm)⟩

/-- The rows of a tree: every entrance with the node that stands there. -/
def rows (node : Trie w α → β) : BitVec w → Nat → Trie w α → List ((BitVec w × Nat) × β)
  | p, n, leaf key value => [((p, n), node (leaf key value))]
  | p, n, branch q b l r => ((p, n), node (branch q b l r)) ::
      (rows node q (b + 1) l ++ rows node (mark q b) (b + 1) r)

theorem rows_entrances (node : Trie w α → β) (p : BitVec w) (n : Nat) (t : Trie w α) :
    (rows node p n t).map Prod.fst = (p, n) :: t.inner := by
  induction t generalizing p n with
  | leaf key value => rfl
  | branch q b l r ihl ihr => simp [rows, inner, ihl, ihr]

theorem Lays.row (h : Lays node m p n t) {x : (BitVec w × Nat) × β} (hx : x ∈ rows node p n t) :
    m x.1 = some x.2 := by
  induction t generalizing p n with
  | leaf key value =>
    rw [List.mem_singleton.mp hx]
    exact h.1
  | branch q b l r ihl ihr =>
    simp only [rows, List.mem_cons, List.mem_append] at hx
    rcases hx with rfl | hx | hx
    · exact h.1
    · exact ihl h.2.1 hx
    · exact ihr h.2.2.1 hx

theorem lays_of_rows (hv : t.Valid p n) (hrow : ∀ x ∈ rows node p n t, m x.1 = some x.2)
    (helse : ∀ e, Below p n e → e ∉ (p, n) :: t.inner → m e = none) : Lays node m p n t := by
  induction t generalizing p n with
  | leaf key value =>
    refine ⟨hrow _ (List.mem_singleton.mpr rfl), fun e he hne => helse e he ?_⟩
    simpa [inner] using hne
  | branch q b l r ihl ihr =>
    obtain ⟨hnb, hb, hqn, hq, hl, hr⟩ := hv
    have hdown : ∀ s e, Below (child q b s).1 (b + 1) e → Below p n e ∧ e ≠ (p, n) := by
      intro s e he
      have hs := (below_child_iff hb hq s e).mp he
      refine ⟨Below.trans ⟨hs.1.le, hs.2.1⟩ hnb hqn, ?_⟩
      rintro rfl
      exact not_below_top hnb he
    have hleft : ∀ e, e ∈ (q, b + 1) :: l.inner → Below (child q b false).1 (b + 1) e :=
      fun e hm => ⟨(hl.entrance_below hm).1, (hl.entrance_below hm).2.2.1⟩
    have hright : ∀ e, e ∈ (mark q b, b + 1) :: r.inner → Below (child q b true).1 (b + 1) e :=
      fun e hm => ⟨(hr.entrance_below hm).1, (hr.entrance_below hm).2.2.1⟩
    have hinner : ∀ e, e ∈ (p, n) :: (branch q b l r).inner ↔
        e = (p, n) ∨ e ∈ (q, b + 1) :: l.inner ∨ e ∈ (mark q b, b + 1) :: r.inner := by
      intro e
      rw [inner, List.mem_cons, List.mem_append]
    refine ⟨hrow _ (List.mem_cons_self ..), ihl hl (fun x hx => ?_) fun e he hm => ?_,
      ihr hr (fun x hx => ?_) fun e he hm => ?_, fun e he hne h1 h2 => ?_⟩
    · exact hrow x (.tail _ (List.mem_append_left _ hx))
    · refine helse e (hdown false e he).1 fun hin => ?_
      rcases (hinner e).mp hin with h | h | h
      · exact (hdown false e he).2 h
      · exact hm h
      · exact not_below_both (s := false) hb hq he (hright e h)
    · exact hrow x (.tail _ (List.mem_append_right _ hx))
    · refine helse e (hdown true e he).1 fun hin => ?_
      rcases (hinner e).mp hin with h | h | h
      · exact (hdown true e he).2 h
      · exact not_below_both (s := true) hb hq he (hleft e h)
      · exact hm h
    · refine helse e he fun hin => ?_
      rcases (hinner e).mp hin with h | h | h
      · exact hne h
      · exact h1 (hleft e h)
      · exact h2 (hright e h)

end Trie
end Radix
