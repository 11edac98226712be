import Kilogram.Vault.Funding

/-!
# Commits that settle

The puts of a commit raise what a context holds by at most the new charges they leave unpaid.
-/

namespace Kilogram
open Credits

/-- What the record at a place is charged, if there is one. -/
def Root.chargeAt (r : Root) (p : Place) : Nat := (r.records[p]?).elim 0 Record.charge

/-- The puts of a commit so far: each changed record has its new charge noted under its key. -/
structure Charged (r : Root) (w : Work) : Prop where
  ledger : w.root.ledger = r.ledger
  spent : w.spent = ∅
  touched : ∀ k : Key, w.baselineCharge[k]? = none ↔ w.newCharge[k]? = none
  unmanaged : ∀ (k : Key) (n : Nat), w.newCharge[k]? = some n → k.context ≤ 1 ∧ k.ns.managed = false
  baseline : ∀ (k : Key) (b : Nat), w.baselineCharge[k]? = some b → b = r.chargeAt k.place
  kept : ∀ p : Place, w.root.records[p]? = none → r.records[p]? = none
  records : ∀ (p : Place) (x : Record), w.root.records[p]? = some x → r.records[p]? = some x ∨
    ∃ (k : Key) (n : Nat), w.newCharge[k]? = some n ∧ k.place = p ∧ x.reserved = 0 ∧
      x.owner = k.context ∧ x.charge ≤ n + r.chargeAt p ∧
      ∀ y, r.records[p]? = some y → y.owner = k.context

namespace Charged
variable {r : Root} {w w' : Work} {k : Key}

theorem new (r : Root) : Charged r (Work.new r) := by
  refine ⟨rfl, rfl, ?_, ?_, ?_, fun _ h => h, fun _ _ h => .inl h⟩
  · simp [Work.new]
  · simp [Work.new]
  · simp [Work.new]

/-- The owner of a record that a key may replace owned it from the start. -/
theorem owner (h : Charged r w) (hold : ∀ x, w.root.records[k.place]? = some x → x.owner = k.context)
    {y : Record} (hy : r.records[k.place]? = some y) : y.owner = k.context := by
  rcases hx : w.root.records[k.place]? with _ | x
  · cases (h.kept _ hx).symm.trans hy
  · rcases h.records _ x hx with hx' | ⟨j, n, _, _, _, hj, _, howner⟩
    · cases hx'.symm.trans hy
      exact hold _ hx
    · exact (howner y hy).trans (hj.symm.trans (hold x hx))

/-- The first write under a key finds the committed charge. -/
theorem baseline_eq (h : Charged r w) (hold : ∀ x, w.root.records[k.place]? = some x → x.owner = k.context) :
    w.baselineCharge.getD k (w.root.chargeAt k.place) = r.chargeAt k.place := by
  rw [Std.TreeMap.getD_eq_getD_getElem?]
  rcases hb : w.baselineCharge[k]? with _ | b
  · change w.root.chargeAt k.place = _
    unfold Root.chargeAt
    rcases hx : w.root.records[k.place]? with _ | x
    · rw [h.kept _ hx]
    · rcases h.records _ x hx with hx' | ⟨j, n, hj, hplace, _, howner, _, _⟩
      · rw [hx']
      · -- another touched key of this place would be this key
        obtain ⟨hc, _⟩ := h.unmanaged j n hj
        obtain rfl := Key.eq_of_place_context hc (howner.symm.trans (hold x hx)) hplace
        exact absurd ((h.touched j).mp hb ▸ hj) (by simp)
  · exact h.baseline k b hb

theorem stored (h : Charged r w) (hc : k.context ≤ 1) (hm : k.ns.managed = false)
    (hold : ∀ x, w.root.records[k.place]? = some x → x.owner = k.context) (value : Bytes) :
    Charged r (w.stored k value 0) := by
  have hbase := h.baseline_eq hold
  obtain ⟨hbaseline, hnew⟩ : (w.stored k value 0).baselineCharge = w.baselineCharge.insert k (r.chargeAt k.place) ∧
      (w.stored k value 0).newCharge = w.newCharge.insert k (charge value - r.chargeAt k.place) := by
    rw [← hbase]
    unfold Root.chargeAt Work.stored
    rcases w.root.records[k.place]? with _ | x
    · exact ⟨rfl, rfl⟩
    · exact ⟨rfl, rfl⟩
  refine ⟨h.ledger, h.spent, ?_, ?_, ?_, ?_, ?_⟩
  · intro j
    rw [hbaseline, hnew, Maps.get_insert, Maps.get_insert]
    split
    · simp
    · exact h.touched j
  · intro j n hj
    rw [hnew, Maps.get_insert] at hj
    split at hj
    · next heq => exact heq ▸ ⟨hc, hm⟩
    · exact h.unmanaged j n hj
  · intro j b hj
    rw [hbaseline, Maps.get_insert] at hj
    split at hj
    · next heq => exact heq ▸ (Option.some.inj hj).symm
    · exact h.baseline j b hj
  · intro p hp
    rw [Work.get_stored] at hp
    split at hp
    · simp at hp
    · exact h.kept p hp
  · intro p x hx
    rw [Work.get_stored] at hx
    split at hx
    · next hp =>
      subst hp
      cases hx
      refine .inr ⟨k, charge value - r.chargeAt k.place, ?_, rfl, rfl, rfl, ?_, ?_⟩
      · rw [hnew, Maps.get_insert, if_pos rfl]
      · change charge value ≤ _
        omega
      · exact fun y hy => h.owner hold hy
    · next hp =>
      refine (h.records p x hx).imp_right ?_
      rintro ⟨j, n, hj, hplace, hrest⟩
      refine ⟨j, n, ?_, hplace, hrest⟩
      rw [hnew, Maps.get_insert_of_ne _ _ (by rintro rfl; exact hp hplace), hj]

theorem puts {value : Bytes} {internal : Bool} (h : Charged r w) (howned : w.root.Owned)
    (hc : k.context ≤ 1) (hm : k.ns.managed = false) (hputs : w.Puts k value 0 internal w') :
    Charged r w' := by
  cases hputs with
  | same => exact h
  | fresh hx _ => exact h.stored hc hm (fun x hx' => absurd (hx.symm.trans hx') (by simp)) value
  | replaced x hx howner _ _ =>
    refine h.stored hc hm (fun y hy => ?_) value
    cases hx.symm.trans hy
    rcases hglobal : k.ns.global with _ | _
    · exact howned k x hc hglobal hx
    · exact howner hglobal

/-- The puts raise the load of a context by no more than they left unpaid. -/
theorem load_le (h : Charged r w) (c : UInt8) : w.root.load c ≤ r.load c + unspent w.newCharge w.spent c := by
  apply Maps.weight_le_of_charged Key.place
  intro p x hx
  rcases h.records p x hx with hsame | ⟨k, n, hk, hplace, hreserved, howner, hcharge, hbefore⟩
  · left
    rw [hsame]
    exact le_rfl
  right
  refine ⟨k, n, hk, hplace, ?_⟩
  by_cases hc : k.context = c
  · rw [if_pos ⟨hc, (h.unmanaged k n hk).2, by simp [h.spent]⟩, Record.burden_self (howner.trans hc)]
    have hle : r.chargeAt p ≤ (r.records[p]?).elim 0 (Record.burden c) := by
      unfold Root.chargeAt
      rcases hy : r.records[p]? with _ | y
      · exact le_rfl
      · rw [Option.elim_some, Option.elim_some, Record.burden_self ((hbefore y hy).trans hc)]
        exact Nat.le_add_right _ _
    change _ ≤ (r.records[p]?).elim 0 (Record.burden c) + n
    omega
  · rw [Record.burden, if_neg fun heq => hc (howner.symm.trans heq)]
    exact Nat.zero_le _

end Charged

namespace Vault
open History

/-- A context that settled has paid for every ordinary record it grew. -/
theorem unspent_of_funded {w : Work} {c : UInt8} (hfunded : checkFunded w = .ok ())
    (hsettled : w.settled.get c = true) : unspent w.newCharge w.spent c = 0 := by
  have hpaid : ∀ (k : Key) (n : Nat), w.newCharge[k]? = some n →
      (if k.context = c ∧ k.ns.managed = false ∧ k ∉ w.spent then n else 0) = 0 := by
    intro k n hk
    simp only [checkFunded, Except.ok_iff, List.any_eq_true, not_exists, not_and, decide_eq_true_eq,
      Prod.forall] at hfunded
    by_contra hn
    obtain ⟨⟨hc, hm, hs⟩, hn⟩ := ite_ne_right_iff.mp hn
    exact hfunded k n (Std.TreeMap.mem_toList_iff_getElem?_eq_some.mpr hk) (Nat.pos_of_ne_zero hn)
      (hc ▸ hsettled) hs hm
  rw [unspent, Maps.weight_congr hpaid]
  exact Maps.weight_zero w.newCharge

theorem putAll_charged {r : Root} {puts : List (Key × Bytes)} {mid : Work} (howned : r.Owned)
    (hm : ∀ entry ∈ puts, entry.1.ns.managed = false) (h : putAll (Work.new r) puts = .ok mid) :
    mid.root.Owned ∧ mid.Tracked ∧ Charged r mid := by
  refine Except.foldlM_invariant (fun u : Work => u.root.Owned ∧ u.Tracked ∧ Charged r u) ?_ h ⟨howned, ?_, .new r⟩
  · rintro u entry u' he hput ⟨hu, ht, hcharged⟩
    obtain ⟨hc, _, hputs⟩ := Work.puts_of_put hput
    exact ⟨hputs.owned hu, hputs.tracked ht, hcharged.puts hu hc (hm entry he) hputs⟩
  · intro k _ htouched
    simp [Work.new] at htouched

/-- A context without puts has nothing to pay for. -/
theorem putAll_unspent {r : Root} {puts : List (Key × Bytes)} {mid : Work} {c : UInt8}
    (hputs : ∀ entry ∈ puts, entry.1.context ≠ c) (h : putAll (Work.new r) puts = .ok mid) :
    unspent mid.newCharge mid.spent c = 0 := by
  refine Except.foldlM_invariant (fun u : Work => unspent u.newCharge u.spent c = 0) ?_ h (Maps.weight_empty _)
  intro u entry u' he hput hu
  obtain ⟨_, _, hstep⟩ := Work.puts_of_put hput
  cases hstep with
  | same => exact hu
  | fresh | replaced => exact (Work.unspent_stored (.inl (hputs entry he)) _ _ _).trans hu

/-- Settlements are prepaid. When the credit actions of a commit only settle or move credit, a
context that settled in it, or in which it put nothing, holds no more than before, its repair pool
has not grown, and its ledger passes its check. -/
theorem settlement_prepaid [Primitives] {r : Root} (hr : Reachable r) {input : Input}
    {puts : List (Key × Bytes)} {credits : List CreditAction} (hlowers : Lowers r input puts credits)
    (hcredits : ∀ a ∈ credits, a.prepaid = true) {mid w : Work}
    (hput : putAll (Work.new r) puts = .ok mid) (hcredit : credits.foldlM apply mid = .ok w)
    (hfunded : checkFunded w = .ok ()) {c : UInt8} (hc : c ≤ 1)
    (hsettled : w.settled.get c = true ∨ ∀ entry ∈ puts, entry.1.context ≠ c) :
    w.root.held c ≤ r.held c ∧ (w.root.ledger.get c).pool ≤ (r.ledger.get c).pool ∧
      (w.root.ledger.get c).check (w.root.used c) (w.root.reserved c) = .ok () := by
  have hsound := sound_of_reachable hr
  obtain ⟨howned, htracked, hcharged⟩ := putAll_charged (owned_of_reachable hr) hlowers.unmanaged hput
  have hagree : Agree mid.root := putAll_invariant
    (fun u u' entry he hu hI => put_agree hI (hlowers.unmanaged entry he) hu) hput hsound.agree
  have hrun := applyAll_prepaid hc hcredits hagree howned htracked hcredit
  have hpaid : unspent w.newCharge w.spent c = 0 := by
    rcases hsettled with hsettled | hputs
    · exact unspent_of_funded hfunded hsettled
    · rcases hrun.settled with hs | hs
      · exact unspent_of_funded hfunded hs
      · exact hs.trans (putAll_unspent hputs hput)
  have hheld : w.root.held c ≤ r.held c := by
    have hload := hcharged.load_le c
    have hbalance := hrun.held
    rw [Root.held_eq mid.root, hcharged.ledger] at hbalance
    rw [Root.held_eq r]
    omega
  have hpool : (w.root.ledger.get c).pool ≤ (r.ledger.get c).pool := by
    rw [← hcharged.ledger]
    exact hrun.pool
  refine ⟨hheld, hpool, ?_⟩
  obtain ⟨hquota, hpools, hpending, hlt, _⟩ := Ledger.check_eq_ok (hsound.budget c hc)
  have hquotas := hrun.quota
  have hpendings := hrun.pending
  rw [hcharged.ledger] at hquotas hpendings
  unfold Root.held at hheld
  apply Ledger.check_of_le
  · omega
  · omega
  · exact hpool.trans hpools
  · exact hpendings.trans hpending

/-- A text is queued, then a commit puts its event and projection and settles its ticket. -/
def sampleQueued : List Request := [⟨1, 7, 0, .generic [] [.queue 0 1 31 [97]]⟩]

def samplePuts : List (Key × Bytes) := [(⟨0, .event, 21⟩, [1, 2, 3]), (⟨0, .projection, 21⟩, [5, 0, 1, 97, 0, 0])]

def sampleCredits : List CreditAction := [.materialize 0 1 31 1 21 [⟨0, .event, 21⟩, ⟨0, .projection, 21⟩]]

/-- The root before a commit, and the working state after its puts and after its actions. -/
def runCommit [Primitives] (quota : Two Nat) (requests : List Request) (puts : List (Key × Bytes))
    (credits : List CreditAction) : Result (Root × Work × Work) := do
  let r ← history ⟨1, 2, ⟨3, 4⟩⟩ 0 quota requests
  historyGuardGeneric r (puts.map fun entry => .put entry.1 entry.2) credits
  let mid ← putAll (Work.new r) puts
  let w ← credits.foldlM apply mid
  checkFunded w
  return (r, mid, w)

theorem settlement_prepaid_sample : ∃ (r : Root) (mid w : Work),
    @history Primitives.plain ⟨1, 2, ⟨3, 4⟩⟩ 0 ⟨2 ^ 34, 2 ^ 34⟩ sampleQueued = .ok r ∧
      putAll (Work.new r) samplePuts = .ok mid ∧ sampleCredits.foldlM apply mid = .ok w ∧
      w.settled.get 0 = true ∧ w.root.held 0 ≤ r.held 0 ∧
      (w.root.ledger.get 0).pool ≤ (r.ledger.get 0).pool ∧
      (w.root.ledger.get 0).check (w.root.used 0) (w.root.reserved 0) = .ok () := by
  let _ := Primitives.plain
  obtain ⟨⟨r, mid, w⟩, hrun, hsettled⟩ := Except.exists_of_any
    (x := runCommit ⟨2 ^ 34, 2 ^ 34⟩ sampleQueued samplePuts sampleCredits)
    (p := fun y => y.2.2.settled.get 0) (by decide +kernel)
  simp only [runCommit, Except.ok_iff, Prod.mk.injEq] at hrun
  obtain ⟨_, hr, _, hguard, _, hput, _, hcredit, _, hfunded, rfl, rfl, rfl⟩ := hrun
  exact ⟨_, _, _, hr, hput, hcredit, hsettled, settlement_prepaid (reachable_of_history hr)
    (.generic (by decide) hguard) (by decide) hput hcredit hfunded (by decide) (.inl hsettled)⟩

/-- Without a settlement a put is not paid for: next to a grant it passes the checks of the actions
and the unfunded-retention check, raises what the context holds, and fails the quota. -/
theorem unsettled_put_not_prepaid : ∃ (r : Root) (mid w : Work),
    @history Primitives.plain ⟨1, 2, ⟨3, 4⟩⟩ 0 ⟨repairPool + tempCredit, 2 ^ 34⟩ [] = .ok r ∧
      putAll (Work.new r) [(⟨0, .current, 5⟩, [1])] = .ok mid ∧
      [CreditAction.grant 0 9 1 2].foldlM apply mid = .ok w ∧ checkFunded w = .ok () ∧
      (∀ a ∈ [CreditAction.grant 0 9 1 2], a.prepaid = true) ∧ r.held 0 < w.root.held 0 ∧
      (w.root.ledger.get 0).check (w.root.used 0) (w.root.reserved 0) = .error .quota := by
  let _ := Primitives.plain
  obtain ⟨⟨r, mid, w⟩, hrun, hgrows⟩ := Except.exists_of_any
    (x := runCommit ⟨repairPool + tempCredit, 2 ^ 34⟩ [] [(⟨0, .current, 5⟩, [1])] [.grant 0 9 1 2])
    (p := fun y => decide (y.1.held 0 < y.2.2.root.held 0 ∧
      (y.2.2.root.ledger.get 0).check (y.2.2.root.used 0) (y.2.2.root.reserved 0) = .error .quota))
    (by decide +kernel)
  simp only [runCommit, Except.ok_iff, Prod.mk.injEq] at hrun
  obtain ⟨_, hr, _, hguard, _, hput, _, hcredit, _, hfunded, rfl, rfl, rfl⟩ := hrun
  exact ⟨_, _, _, hr, hput, hcredit, hfunded, by decide, of_decide_eq_true hgrows⟩

end Vault
end Kilogram
