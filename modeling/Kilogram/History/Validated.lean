import Kilogram.History.Protocol2

/-!
# What a validated plan may do

A plan that passes its checks puts records of its own context only, never a ticket, and makes credit
actions of its own context that fit its purpose.
-/

namespace Kilogram.History
open Kilogram Wire
open Except (ok_iff)
section
variable [Primitives] {r : Root} {p : Plan}

theorem identityKey_eq_ok {c : UInt8} {k : Key} (h : identityKey c = .ok k) :
    c ≤ 1 ∧ k.context = c ∧ k.ns = .control := by
  obtain ⟨hc, _, rfl⟩ := Key.hash_eq_ok.mp h
  exact ⟨hc, rfl, rfl⟩

theorem headsKey_eq_ok {c : UInt8} {k : Key} (h : headsKey c = .ok k) : c ≤ 1 ∧ k.context = c ∧ k.ns = .current := by
  obtain ⟨hc, _, rfl⟩ := Key.hash_eq_ok.mp h
  exact ⟨hc, rfl, rfl⟩

/-- No purpose lets a plan write a ticket. -/
theorem managed_of_allowedPut {k : Key} {value : Bytes} (h : allowedPut r p k value = .ok true) :
    k.ns.managed = false := by
  by_contra hm
  have hns : k.ns = .credit ∨ k.ns = .queue ∨ k.ns = .pending ∨ k.ns = .undelivered := by
    revert hm
    cases k.ns <;> simp [Namespace.managed]
  have hrow : allowedRowPut r p k value = .ok false := by
    rcases hns with h | h | h | h <;> simp [allowedRowPut, h, pure, Except.pure]
  unfold allowedPut at h
  cases hp : p.purpose with
  | init =>
    simp only [hp, ok_iff] at h
    obtain ⟨ik, hik, hk, hhk, h⟩ := h
    have hi := (identityKey_eq_ok hik).2.2
    have hh := (headsKey_eq_ok hhk).2.2
    rw [if_neg, if_neg] at h
    · simp at h
    · rcases hns with h | h | h | h <;> simp [h]
    · rintro (rfl | rfl)
      · rcases hns with h | h | h | h <;> simp [h] at hi
      · rcases hns with h | h | h | h <;> simp [h] at hh
  | genesis | text => simp [hp, hrow] at h
  | repair => simp [hp] at h
  | queue | pending | capture | ack => rcases hns with hns | hns | hns | hns <;> simp [hp, hns] at h

/-- The scope of a plan: its context, and what its purpose allows. -/
structure Scoped (r : Root) (p : Plan) : Prop where
  context : ∀ entry ∈ p.puts.toList, entry.1.context = p.context
  shared : ∀ entry ∈ p.puts.toList, entry.1.ns.global = true →
    ∀ x, r.records[entry.1.place]? = some x → x.owner = p.context
  allowed : ∀ entry ∈ p.puts.toList, allowedPut r p entry.1 entry.2 = .ok true
  credit : ∀ a ∈ p.credits, a.context = p.context ∧ allowedAction p.purpose a = true

theorem checkPut_eq_ok {entry : Key × Bytes} {u : Unit} (h : checkPut r p entry = .ok u) :
    entry.1.context = p.context ∧ checkGlobalPut r p entry.1 entry.2 = .ok () ∧
      allowedPut r p entry.1 entry.2 = .ok true := by
  simp only [checkPut, ok_iff, not_not] at h
  obtain ⟨_, hc, _, _, _, hglobal, ok, hok, htrue⟩ := h
  rw [Bool.not_eq_false] at htrue
  exact ⟨hc, hglobal, htrue ▸ hok⟩

omit [Primitives] in
theorem owner_of_checkGlobalPut {k : Key} {value : Bytes}
    (h : checkGlobalPut r p k value = .ok ()) (hk : k.ns.global = true) {x : Record}
    (hx : r.records[k.place]? = some x) : x.owner = p.context := by
  simp only [checkGlobalPut, if_pos hk, ok_iff, hx, Option.any_some, decide_eq_true_eq, not_not] at h
  obtain ⟨_, _, howner⟩ := h
  exact howner

omit [Primitives] in
theorem checkAction_eq_ok {m n : Matching} {a : CreditAction} (h : checkAction p m a = .ok n) :
    a.context = p.context ∧ allowedAction p.purpose a = true := by
  simp only [checkAction, ok_iff, not_or, not_not] at h
  obtain ⟨_, ⟨hc, _⟩, _, _, _, _, _, hallowed, _⟩ := h
  exact ⟨hc, by simpa using hallowed⟩

theorem scoped_of_validate (h : historyValidatePlan r p = .ok ()) : Scoped r p := by
  simp only [historyValidatePlan, ok_iff, Except.forM_eq_ok] at h
  obtain ⟨_, _, _, _, _, _, _, hputs, _, _, m, hcredits, _⟩ := h
  refine ⟨fun entry he => (checkPut_eq_ok (hputs entry he)).1, ?_,
    fun entry he => (checkPut_eq_ok (hputs entry he)).2.2, ?_⟩
  · intro entry he hglobal x hx
    exact owner_of_checkGlobalPut (checkPut_eq_ok (hputs entry he)).2.1 hglobal hx
  · exact Except.forall_of_foldlM (f := checkAction p) (fun _ _ _ h => checkAction_eq_ok h) hcredits

theorem historyExecute_eq_ok {w w' : Work} (h : historyExecute w p = .ok w') :
    historyValidatePlan w.root p = .ok () ∧ ∃ mid, putAll w p.puts.toList = .ok mid ∧
      p.credits.foldlM Credits.apply mid = .ok w' := by
  simp only [historyExecute, ok_iff] at h
  obtain ⟨_, hvalid, mid, hput, hcredit⟩ := h
  exact ⟨hvalid, mid, hput, hcredit⟩

end

namespace Plan

/-- More puts, under keys of `N` only, with the same header, rows and credit actions. -/
structure Grows (N : Key → Prop) (p q : Plan) : Prop where
  shape : q = { p with puts := q.puts, allowed := q.allowed }
  puts : ∀ (k : Key) (v : Bytes), p.puts[k]? = some v → q.puts[k]? = some v
  only : ∀ k : Key, ¬ N k → q.puts[k]? = p.puts[k]?

variable {N M : Key → Prop} {p q s : Plan}

theorem Grows.refl (p : Plan) : p.Grows N p := ⟨rfl, fun _ _ h => h, fun _ _ => rfl⟩

theorem Grows.trans (h : p.Grows N q) (h' : q.Grows N s) : p.Grows N s := by
  refine ⟨?_, fun k v hk => h'.puts k v (h.puts k v hk), ?_⟩
  · rw [h'.shape, h.shape]
  · intro k hk
    rw [h'.only k hk, h.only k hk]

theorem Grows.mono (h : p.Grows N q) (hNM : ∀ k, N k → M k) : p.Grows M q :=
  ⟨h.shape, h.puts, fun k hk => h.only k fun hn => hk (hNM k hn)⟩

theorem Grows.context (h : p.Grows N q) : q.context = p.context := by
  rw [h.shape]

theorem Grows.purpose (h : p.Grows N q) : q.purpose = p.purpose := by
  rw [h.shape]

theorem Grows.rows (h : p.Grows N q) : q.rows = p.rows := by
  rw [h.shape]

theorem Grows.credits (h : p.Grows N q) : q.credits = p.credits := by
  rw [h.shape]

theorem put_eq_ok {k : Key} {value : Bytes} (h : p.put k value = .ok q) :
    p.Grows (· = k) q ∧ q.puts[k]? = some value := by
  simp only [put, ok_iff] at h
  obtain ⟨_, hsame, rfl⟩ := h
  refine ⟨⟨rfl, ?_, fun j hj => Maps.get_insert_of_ne _ _ hj⟩, ?_⟩
  · intro j v hj
    rw [Maps.get_insert]
    split
    · next hkj =>
      subst hkj
      simp only [hj, Option.any_some, decide_eq_true_eq, not_not] at hsame
      rw [hsame]
    · exact hj
  · rw [Maps.get_insert, if_pos rfl]

theorem putAt_eq_ok {k : Result Key} {value : Bytes} (h : p.putAt k value = .ok q) :
    ∃ j, k = .ok j ∧ p.Grows (· = j) q ∧ q.puts[j]? = some value := by
  simp only [putAt, ok_iff] at h
  obtain ⟨j, hj, hput⟩ := h
  exact ⟨j, hj, put_eq_ok hput⟩

theorem addAuth_eq_ok {auth : Auth} {k : Key} (h : p.addAuth auth = .ok (q, k)) :
    p.Grows (·.ns = .auth) q ∧ k = ⟨p.context, .auth, auth.id⟩ ∧ q.puts[k]? = some auth.bytes := by
  simp only [addAuth, ok_iff, Prod.mk.injEq] at h
  obtain ⟨_, _, j, hj, q', hput, rfl, rfl⟩ := h
  obtain ⟨_, _, rfl⟩ := Key.hash_eq_ok.mp hj
  obtain ⟨hgrow, hk⟩ := put_eq_ok hput
  exact ⟨hgrow.mono (by rintro _ rfl; rfl), rfl, hk⟩

theorem addAuths_eq_ok {auths : List Auth} {ks : List Key} (h : p.addAuths auths = .ok (q, ks)) :
    p.Grows (·.ns = .auth) q ∧ ks = auths.map (fun a => ⟨p.context, .auth, a.id⟩) ∧
      ∀ a ∈ auths, q.puts[(⟨p.context, .auth, a.id⟩ : Key)]? = some a.bytes := by
  induction auths generalizing p ks with
  | nil =>
    simp only [addAuths, ok_iff, Prod.mk.injEq] at h
    obtain ⟨rfl, rfl⟩ := h
    exact ⟨.refl p, rfl, by simp⟩
  | cons a auths ih =>
    simp only [addAuths, ok_iff, Prod.exists, Prod.mk.injEq] at h
    obtain ⟨p', k, ha, q', ks', hrest, rfl, rfl⟩ := h
    obtain ⟨hgrow, rfl, hput⟩ := addAuth_eq_ok ha
    obtain ⟨hgrow', rfl, hputs⟩ := ih hrest
    rw [hgrow.context] at hputs ⊢
    refine ⟨hgrow.trans hgrow', rfl, ?_⟩
    rw [List.forall_mem_cons]
    exact ⟨hgrow'.puts _ _ hput, hputs⟩

theorem addCapture_eq_ok {ordinal : UInt64} {event : Id} {capture : Capture}
    (h : p.addCapture ordinal event capture = .ok q) :
    ∃ s, p.Grows (·.ns = .auth) s ∧ q = s.addCredit
      (.capturePending p.context ordinal event capture.original.id capture.admission.id) := by
  simp only [addCapture, ok_iff, Prod.exists] at h
  obtain ⟨p', _, h₁, s, _, h₂, rfl⟩ := h
  have hgrow := (addAuth_eq_ok h₁).1.trans (addAuth_eq_ok h₂).1
  exact ⟨s, hgrow, by rw [hgrow.context]⟩

end Plan
end Kilogram.History
