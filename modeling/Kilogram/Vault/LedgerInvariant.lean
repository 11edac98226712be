import Kilogram.Vault.CommitSteps
import Kilogram.Vault.Tickets

/-!
# The ledgers of reachable roots

Over any run of commits, generic ones and those of both history writers, each ledger agrees with the
pending tickets stored in its context, and its repair pool is never exceeded.
-/

namespace Kilogram
open Credits

/-- What a ledger of a Component5 root says about the stored tickets of its context. -/
structure Root.LedgerAgrees (r : Root) (c : UInt8) : Prop where
  layout : r.layout = .component5
  tickets : ∀ (p : Place) (x : Record), r.records[p]? = some x → p.tree = pendingTree c →
    ∃ n t, p = (pendingKey c n).place ∧ Ticket.decode x.value = .ok t ∧ t.stage = 2
  pending : (r.ledger.get c).pending = r.countPending c fun t => !t.head
  head : ∀ n, (r.ledger.get c).head = some n ↔ r.HeadAt c n
  single : ∀ m n, r.HeadAt c m → r.HeadAt c n → m = n
  outstanding : (r.ledger.get c).outstanding = frameCredit * r.countPending c fun t => t.repair
  grant : ∀ g, (r.ledger.get c).grant = some g → ∀ i, g.available.getLsbD i = true → g.start.toNat + i < g.stop.toNat
  pool : (r.ledger.get c).repairFree + (r.ledger.get c).grantBytes + (r.ledger.get c).outstanding ≤ repairPool

namespace Vault
open History

theorem agree_of_empty {r : Root} (hrecords : r.records = ∅)
    (hledger : ∀ d, d ≤ 1 → ∃ quota, r.ledger.get d = ⟨quota, repairPool, 0, 0, none, none⟩) :
    Agree r := by
  have hnone : ∀ p : Place, r.records[p]? = none := by simp [hrecords]
  have hcount : ∀ d q, r.countPending d q = 0 := by
    intro d q
    rw [Root.countPending, hrecords]
    exact Maps.weight_empty _
  intro d hd
  obtain ⟨quota, hl⟩ := hledger d hd
  refine ⟨⟨?_, ?_, ?_, ?_, ?_⟩, ?_⟩
  · intro p x hp
    cases (hnone p).symm.trans hp
  · rw [hl, hcount]
  · intro n
    rw [hl]
    constructor
    · exact fun h => absurd h (by simp)
    · rintro ⟨x, _, hx, _⟩
      cases (hnone _).symm.trans hx
  · rw [hl, hcount, Nat.mul_zero]
  · rw [hl]
    exact fun g hg => absurd hg (by simp)
  · intro p x hp
    cases (hnone p).symm.trans hp

theorem agree_congr {r s : Root} (h : Agree r) (hrecords : s.records = r.records)
    (hledger : s.ledger = r.ledger) : Agree s := by
  intro d hd
  obtain ⟨hp, hq⟩ := h d hd
  exact ⟨pendingTickets_of_same hp (fun p _ => by rw [hrecords]) (by rw [hledger]),
    hq.congr fun p _ => by rw [hrecords]⟩

theorem create_eq_ok {claim : CreationClaim} {incarnation : Id} {quota : Two Nat} {r : Root}
    (h : create claim incarnation quota = .ok r) :
    r = ⟨.component5, incarnation, claim.account, claim.claim, claim.contexts, 1, 0, 0, ∅,
      ⟨⟨quota.zero, repairPool, 0, 0, none, none⟩, ⟨quota.one, repairPool, 0, 0, none, none⟩⟩⟩ ∧
      r.check = .ok () := by
  simp only [create, Ledger.new, Except.ok_iff] at h
  obtain ⟨_, _, _, ⟨_, _, rfl⟩, _, ⟨_, _, rfl⟩, _, hcheck, rfl⟩ := h
  exact ⟨rfl, hcheck⟩

theorem ledger_check_of_check {r : Root} (h : r.check = .ok ()) {c : UInt8} (hc : c ≤ 1) :
    (r.ledger.get c).check (r.used c) (r.reserved c) = .ok () := by
  simp only [Root.check, Root.checkContext, Root.totals, Except.ok_iff] at h
  obtain ⟨_, _, _, _, _, ⟨_, _, _, _, rfl⟩, _, ⟨_, h0, _⟩, _, h1, _⟩ := h
  rcases Two.eq_zero_or_one hc with rfl | rfl
  · exact h0
  · exact h1

section
variable [Primitives]

/-- The invariant of runs: tickets agree, budgets hold, and the layout is Component5. -/
structure Sound (r : Root) : Prop where
  layout : r.layout = .component5
  agree : Agree r
  budget : ∀ c, c ≤ 1 → (r.ledger.get c).check (r.used c) (r.reserved c) = .ok ()

omit [Primitives] in
theorem sound_of_create {claim : CreationClaim} {incarnation : Id} {quota : Two Nat} {r : Root}
    (h : create claim incarnation quota = .ok r) : Sound r := by
  obtain ⟨rfl, hcheck⟩ := create_eq_ok h
  refine ⟨rfl, agree_of_empty rfl ?_, fun c hc => ledger_check_of_check hcheck hc⟩
  intro d hd
  rcases Two.eq_zero_or_one hd with rfl | rfl
  · exact ⟨quota.zero, rfl⟩
  · exact ⟨quota.one, rfl⟩

omit [Primitives] in
theorem put_layout {w w' : Work} {k : Key} {value : Bytes} {reserved : Nat} {internal : Bool}
    (h : w.put k value reserved internal = .ok w') : w'.root.layout = w.root.layout := by
  obtain ⟨_, _, hputs⟩ := Work.puts_of_put h
  cases hputs with
  | same => rfl
  | fresh => rfl
  | replaced => rfl

omit [Primitives] in
theorem apply_layout {w w' : Work} {a : CreditAction} (h : apply w a = .ok w') : w'.root.layout = w.root.layout := by
  rw [(apply_keeps h).2.root]

theorem Applied.sound {r s : Root} {q : Request} {puts : List (Key × Bytes)}
    {credits : List CreditAction} {mid w : Work} (hr : Sound r)
    (h : Applied r q s puts credits mid w) : Sound s := by
  have hmid : Agree mid.root ∧ mid.root.layout = .component5 := by
    refine putAll_invariant (I := fun r => Agree r ∧ r.layout = .component5) ?_ h.put ⟨hr.agree, hr.layout⟩
    intro u u' entry he hput hu
    exact ⟨put_agree hu.1 (h.lowers.unmanaged entry he) hput, (put_layout hput).trans hu.2⟩
  have hw : Agree w.root ∧ w.root.layout = .component5 := by
    refine credits_invariant (I := fun r => Agree r ∧ r.layout = .component5) ?_ h.credit hmid
    intro u u' a _ ha hu
    exact ⟨apply_agree hu.1 ha, (apply_layout ha).trans hu.2⟩
  rw [h.root]
  exact ⟨hw.2, agree_congr hw.1 rfl rfl, fun c hc => ledger_check_of_check h.check hc⟩

theorem sound_of_reachable {r : Root} (h : Reachable r) : Sound r :=
  invariant_of_reachable (fun _ _ _ _ => sound_of_create)
    (fun _ _ _ _ _ _ _ hr happ => happ.sound hr) h

/-- In every reachable root each ledger agrees with the stored tickets of its context. -/
theorem ledger_agrees_of_reachable {r : Root} (h : Reachable r) {c : UInt8} (hc : c ≤ 1) : r.LedgerAgrees c := by
  have hsound := sound_of_reachable h
  have ht := (hsound.agree c hc).1
  refine ⟨hsound.layout, ?_, ht.ordinary, ht.head, ?_, ht.repair, ?_, (Ledger.check_eq_ok (hsound.budget c hc)).2.1⟩
  · intro p x hx htree
    obtain ⟨n, t, hform⟩ := ht.form p x hx htree
    exact ⟨n, t, hform.place, hform.decode, hform.stage⟩
  · intro m n hm hn
    exact Option.some.inj (((ht.head m).mpr hm).symm.trans ((ht.head n).mpr hn))
  · intro g hg i hi
    have := ht.grant g hg i hi
    omega

end

/-- A vault that accepted a grant, an ordinary frame and a head frame under the grant. -/
def sampleFrames : List Request := [⟨1, 7, 0, .generic [] [.grant 0 5 3 6, .pending 0 9 11 [1, 2, 3] false none,
    .pending 0 4 12 [4, 5] true (some 5)]⟩]

theorem ledger_agrees_of_reachable_sample : ∃ r : Root,
    @history Primitives.plain ⟨1, 2, ⟨3, 4⟩⟩ 0 ⟨2 ^ 34, 2 ^ 34⟩ sampleFrames = .ok r ∧ r.LedgerAgrees 0 := by
  obtain ⟨r, hr⟩ := Except.exists_of_isOk (x := @history Primitives.plain ⟨1, 2, ⟨3, 4⟩⟩ 0
    ⟨2 ^ 34, 2 ^ 34⟩ sampleFrames) (by decide +kernel)
  exact ⟨r, hr, @ledger_agrees_of_reachable Primitives.plain r
    (@reachable_of_history Primitives.plain _ _ _ _ _ hr) 0 (by decide)⟩

end Vault
end Kilogram
