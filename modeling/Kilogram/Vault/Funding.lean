import Kilogram.Vault.LedgerInvariant
import Kilogram.Vault.Owners

/-!
# Prepaid settlements

What a context holds against its quota is what its records are charged, what they reserve and what its
ledger keeps back.
-/

namespace Kilogram
open Credits

/-- What a record weighs on the quota of `c`. -/
def Record.burden (c : UInt8) (x : Record) : Nat := if x.owner = c then x.charge + x.reserved else 0

theorem Record.burden_self {c : UInt8} {x : Record} (h : x.owner = c) : x.burden c = x.charge + x.reserved := if_pos h

namespace Root

def load (r : Root) (c : UInt8) : Nat := Maps.weight (fun _ x => x.burden c) r.records

/-- What a context holds against its quota. -/
def held (r : Root) (c : UInt8) : Nat := r.used c + r.reserved c + (r.ledger.get c).guarded

theorem load_eq (r : Root) (c : UInt8) : r.load c = r.used c + r.reserved c := by
  rw [load, used, reserved, ← Maps.weight_add]
  apply Maps.weight_congr
  intro p x _
  unfold Record.burden
  split
  · rfl
  · rfl

theorem held_eq (r : Root) (c : UInt8) : r.held c = r.load c + (r.ledger.get c).guarded := by
  rw [held, load_eq]

theorem load_of_sameOwned {r s : Root} {d : UInt8} (h : r.SameOwned d s) : s.load d = r.load d := by
  apply Maps.weight_of_support
  intro p x hx
  apply h p x
  by_contra hne
  exact hx (if_neg hne)

end Root

namespace Work
variable {w w' : Work} {c : UInt8} {k : Key}

theorem load_stored (w : Work) (c : UInt8) (k : Key) (value : Bytes) (reserved : Nat) :
    (w.stored k value reserved).root.load c + (w.root.records[k.place]?).elim 0 (Record.burden c) =
      w.root.load c + Record.burden c ⟨value, reserved, k.context⟩ :=
  Maps.weight_insert (fun _ x => Record.burden c x) w.root.records k.place ⟨value, reserved, k.context⟩

theorem load_stored_fresh (hk : k.context = c) (h : w.root.records[k.place]? = none)
    (value : Bytes) (reserved : Nat) :
    (w.stored k value reserved).root.load c = w.root.load c + (charge value + reserved) := by
  have hload := w.load_stored c k value reserved
  rw [h, Record.burden_self hk] at hload
  exact hload

theorem load_removed {x : Record} (h : w.root.records[k.place]? = some x) (hx : x.owner = c) :
    (w.removed k x).root.load c + (x.charge + x.reserved) = w.root.load c := by
  rw [← Record.burden_self hx]
  exact Maps.weight_erase_of_some (fun _ x => Record.burden c x) h

/-- Charges of tickets, and of the other context, are not among the unpaid ones. -/
theorem unspent_stored (hk : k.context ≠ c ∨ k.ns.managed = true) (value : Bytes) (reserved : Nat)
    (spent : Finset Key) :
    unspent (w.stored k value reserved).newCharge spent c = unspent w.newCharge spent c := by
  have hzero : ∀ n : Nat, (if k.context = c ∧ k.ns.managed = false ∧ k ∉ spent then n else 0) = 0 := by
    intro n
    rw [if_neg]
    rintro ⟨hc, hm, _⟩
    rcases hk with hk | hk
    · exact hk hc
    · rw [hk] at hm
      simp at hm
  exact Maps.weight_insert_of_zero (hzero _) fun n _ => hzero n

theorem unspent_removed (hk : k.context ≠ c ∨ k.ns.managed = true) (x : Record) (spent : Finset Key) :
    unspent (w.removed k x).newCharge spent c = unspent w.newCharge spent c := by
  apply Maps.weight_insert_of_zero
  · exact ite_self 0
  · intro n _
    rw [if_neg]
    rintro ⟨hc, hm, _⟩
    rcases hk with hk | hk
    · exact hk hc
    · rw [hk] at hm
      simp at hm

/-- The ordinary records a commit has touched or paid for are stored. -/
def Tracked (w : Work) : Prop := ∀ k : Key, k.ns.managed = false →
    (w.baselineCharge[k]? ≠ none ∨ w.newCharge[k]? ≠ none ∨ k ∈ w.spent) →
    ∃ x, w.root.records[k.place]? = some x

theorem tracked_stored (h : w.Tracked) (value : Bytes) (reserved : Nat) : (w.stored k value reserved).Tracked := by
  intro j hj htouched
  rw [get_stored]
  split
  · exact ⟨_, rfl⟩
  · next hne =>
    have hkj : j ≠ k := fun heq => hne (heq ▸ rfl)
    apply h j hj
    rcases htouched with htouched | htouched | htouched
    · exact .inl (by rwa [stored, Maps.get_insert_of_ne _ _ hkj] at htouched)
    · exact .inr (.inl (by rwa [stored, Maps.get_insert_of_ne _ _ hkj] at htouched))
    · exact .inr (.inr htouched)

theorem tracked_removed (h : w.Tracked) (hc : k.context ≤ 1) (hm : k.ns.managed = true)
    (hg : k.ns.global = false) (x : Record) : (w.removed k x).Tracked := by
  intro j hj htouched
  have hkj : j ≠ k := by
    rintro rfl
    rw [hj] at hm
    simp at hm
  rw [get_removed, if_neg fun heq => hkj (Key.eq_of_place_eq hc hg heq).symm]
  apply h j hj
  rcases htouched with htouched | htouched | htouched
  · exact .inl (by rwa [removed, Maps.get_insert_of_ne _ _ hkj] at htouched)
  · exact .inr (.inl (by rwa [removed, Maps.get_insert_of_ne _ _ hkj] at htouched))
  · exact .inr (.inr htouched)

theorem Puts.tracked {value : Bytes} {reserved : Nat} {internal : Bool} (h : w.Tracked)
    (hputs : w.Puts k value reserved internal w') : w'.Tracked := by
  cases hputs with
  | same => exact h
  | fresh | replaced => exact tracked_stored h value reserved

theorem tracked_spend (h : w.Tracked) {spent : Finset Key} (settled : Two Bool)
    (hspent : ∀ k ∈ spent, k ∉ w.spent → ∃ x, w.root.records[k.place]? = some x) :
    { w with spent, settled }.Tracked := by
  intro k hk htouched
  by_cases hs : k ∈ w.spent
  · exact h k hk (.inr (.inr hs))
  · rcases htouched with htouched | htouched | htouched
    · exact h k hk (.inl htouched)
    · exact h k hk (.inr (.inl htouched))
    · exact hspent k htouched hs

end Work

/-- Between two states of a commit, what `c` holds and still has to pay for did not grow. -/
structure Prepaid (c : UInt8) (w w' : Work) : Prop where
  held : w'.root.held c + unspent w.newCharge w.spent c ≤ w.root.held c + unspent w'.newCharge w'.spent c
  pool : (w'.root.ledger.get c).pool ≤ (w.root.ledger.get c).pool
  pending : (w'.root.ledger.get c).pending ≤ (w.root.ledger.get c).pending
  quota : (w'.root.ledger.get c).quota = (w.root.ledger.get c).quota
  kept : w.settled.get c = true → w'.settled.get c = true
  settled : w'.settled.get c = true ∨ unspent w'.newCharge w'.spent c = unspent w.newCharge w.spent c

namespace Prepaid
variable {c : UInt8} {w w' w'' : Work}

theorem refl (c : UInt8) (w : Work) : Prepaid c w w := ⟨le_rfl, le_rfl, le_rfl, rfl, id, .inr rfl⟩

theorem trans (h : Prepaid c w w') (h' : Prepaid c w' w'') : Prepaid c w w'' := by
  refine ⟨?_, h'.pool.trans h.pool, h'.pending.trans h.pending, h'.quota.trans h.quota, h'.kept ∘ h.kept, ?_⟩
  · have := h.held
    have := h'.held
    omega
  · rcases h'.settled with hs' | hs'
    · exact .inl hs'
    · exact h.settled.imp h'.kept hs'.trans

end Prepaid

namespace Credits
variable {w w' : Work} {c : UInt8}
variable {l l' : Ledger} {a : CreditAction}

/-- A change of the ledger that keeps records and charges. -/
theorem prepaid_setLedger (hguarded : l.guarded ≤ (w.root.ledger.get c).guarded)
    (hpool : l.pool ≤ (w.root.ledger.get c).pool) (hpending : l.pending ≤ (w.root.ledger.get c).pending)
    (hquota : l.quota = (w.root.ledger.get c).quota) : Prepaid c w (setLedger w c l) := by
  have hl : (setLedger w c l).root.ledger.get c = l := Two.get_set_self _ c l
  refine ⟨?_, by rwa [hl], by rwa [hl], by rwa [hl], id, .inr rfl⟩
  rw [Root.held_eq, Root.held_eq, hl]
  have hload : (setLedger w c l).root.load c = w.root.load c := rfl
  have hunspent : unspent (setLedger w c l).newCharge (setLedger w c l).spent c = unspent w.newCharge w.spent c := rfl
  omega

theorem grant_prepaid {id : Id} {start stop : UInt64} (h : grant w c id start stop = .ok w') : Prepaid c w w' := by
  obtain ⟨_, rfl | ⟨g, hnone, _, _, _, _, hle, rfl⟩⟩ := grant_cases h
  · exact .refl c _
  have hbytes : (w.root.ledger.get c).grantBytes = 0 := by rw [Ledger.grantBytes, hnone]
  apply prepaid_setLedger
  · unfold Ledger.guarded
    rw [hbytes, Ledger.grantBytes]
    dsimp only
    omega
  · unfold Ledger.pool
    rw [hbytes, Ledger.grantBytes]
    dsimp only
    omega
  · exact le_rfl
  · rfl

theorem cancelGrant_prepaid {id : Id} (h : cancelGrant w c id = .ok w') : Prepaid c w w' := by
  obtain ⟨_, g, hg, rfl⟩ := cancelGrant_cases h
  have hbytes : (w.root.ledger.get c).grantBytes = g.count * frameCredit := by
    rw [Ledger.grantBytes, hg]
  apply prepaid_setLedger
  · unfold Ledger.guarded
    rw [hbytes, Ledger.grantBytes]
    dsimp only
    omega
  · unfold Ledger.pool
    rw [hbytes, Ledger.grantBytes]
    dsimp only
    omega
  · exact le_rfl
  · rfl

variable {ordinal : UInt64} {event : Id} {records : List Key}

/-- The head frame takes the temporary slot and one granted frame. -/
theorem pending_prepaid {body : Bytes} {grant : Option Id}
    (h : pending w c ordinal event body true grant = .ok w') : Prepaid c w w' := by
  obtain ⟨hc, _, hgrant, ⟨rfl, _⟩ | ⟨l, l', reserved, hnone, henter, hdraw, hcharge, rfl⟩⟩ := pending_cases h
  · exact .refl c _
  obtain ⟨_, hhead, rfl⟩ | ⟨hfalse, _⟩ := enter_eq_ok henter
  swap
  · simp at hfalse
  obtain ⟨hno, _⟩ | ⟨id, g, b, _, hg, hbit, rfl⟩ := draw_eq_ok hdraw
  · exact absurd hno (hgrant rfl)
  have hcount := Grant.count_take hbit
  have hbytes : (w.root.ledger.get c).grantBytes = g.count * frameCredit := by
    rw [Ledger.grantBytes, show (w.root.ledger.get c).grant = some g from hg]
  set l' : Ledger := { w.root.ledger.get c with
    head := some ordinal, grant := some (g.take b),
    outstanding := (w.root.ledger.get c).outstanding + frameCredit } with hl'
  set w₁ := setLedger w c l' with hw₁
  have hledger : w₁.root.ledger.get c = l' := Two.get_set_self _ c l'
  have hguarded : l'.guarded + frameCredit + tempCredit = (w.root.ledger.get c).guarded := by
    unfold Ledger.guarded
    rw [hbytes, hhead, hcount, Nat.add_mul, Nat.one_mul]
    simp only [hl', Ledger.grantBytes, Option.isNone_some, Option.isNone_none, if_true]
    simp only [Bool.false_eq_true, if_false]
    omega
  have hload := Work.load_stored_fresh (w := w₁) (k := pendingKey c ordinal) (c := c) rfl hnone
    (pendingTicket event body true grant).encode reserved
  have hunspent := Work.unspent_stored (w := w₁) (k := pendingKey c ordinal) (c := c) (.inr rfl)
    (pendingTicket event body true grant).encode reserved w.spent
  have hsame : w₁.root.load c = w.root.load c := rfl
  have hcharges : unspent w₁.newCharge w.spent c = unspent w.newCharge w.spent c := rfl
  refine ⟨?_, ?_, ?_, ?_, fun hs => hs, .inr hunspent⟩
  · rw [Root.held_eq, Root.held_eq, hload]
    change _ + (w₁.root.ledger.get c).guarded + _ ≤ _ + unspent _ w.spent c
    rw [hunspent, hcharges, hledger, hsame]
    omega
  · change (w₁.root.ledger.get c).pool ≤ _
    rw [hledger]
    unfold Ledger.pool
    rw [hbytes, hcount, Nat.add_mul, Nat.one_mul, Ledger.grantBytes]
    simp only [hl']
    omega
  · change (w₁.root.ledger.get c).pending ≤ _
    rw [hledger]
  · change (w₁.root.ledger.get c).quota = _
    rw [hledger]

/-- A capture pays for two snapshots out of the credit of its ticket. -/
theorem capturePending_prepaid {original admission : Id}
    (hagree : Agree w.root) (h : capturePending w c ordinal event original admission = .ok w') :
    Prepaid c w w' := by
  obtain ⟨hc, x, s, hx, hdecode, _, _, ⟨rfl, _⟩ | ⟨hnone, _, hstep⟩⟩ := capturePending_cases h
  · exact .refl c _
  obtain ⟨paid, reserved, spent, _, _, hbalance, hpaid, _, hputs⟩ := hstep
  obtain ⟨n, t, hform⟩ := (hagree c hc).1.form _ x hx rfl
  obtain rfl : s = t := Except.ok.inj (hdecode.symm.trans hform.decode)
  set w₁ : Work := { w with spent, settled := w.settled.set c true } with hw₁
  set raw := { s with captures := some (original, admission), admissionPaid := paid }.encode with hraw
  have hw' : w' = w₁.stored (pendingKey c ordinal) raw reserved :=
    stored_of_capture (w := w₁) hx hform.value hnone hputs
  subst hw'
  have hlen : raw.length = s.encode.length + 64 := length_encode_capture s (original, admission) paid hnone
  have hload := w₁.load_stored c (pendingKey c ordinal) raw reserved
  have hxload : (w₁.root.records[(pendingKey c ordinal).place]?).elim 0 (Record.burden c) =
      charge s.encode + x.reserved := by
    rw [show w₁.root.records[(pendingKey c ordinal).place]? = some x from hx, Option.elim_some,
      Record.burden_self hform.owner, Record.charge, hform.value]
  have hburden : Record.burden c ⟨raw, reserved, (pendingKey c ordinal).context⟩ =
      charge raw + reserved := Record.burden_self rfl
  have hsame : w₁.root.load c = w.root.load c := rfl
  rw [hxload, hsame, hburden] at hload
  have hunspent := Work.unspent_stored (w := w₁) (k := pendingKey c ordinal) (c := c) (.inr rfl)
    raw reserved spent
  have hcharges : unspent w₁.newCharge spent c = unspent w.newCharge spent c := rfl
  have hsettled : w₁.settled.get c = true := Two.get_set_self _ c true
  refine ⟨?_, le_rfl, le_rfl, rfl, fun _ => hsettled, .inl hsettled⟩
  rw [Root.held_eq, Root.held_eq]
  change _ + (w.root.ledger.get c).guarded + _ ≤ _ + unspent _ spent c
  rw [hunspent, hcharges]
  unfold charge at hload hbalance
  omega

/-- A queued text pays for its records, and its ticket turns into the one of the event. -/
theorem materialize_prepaid {queue : UInt64} {request : Id} (hagree : Agree w.root)
    (h : materialize w c queue request ordinal event records = .ok w') : Prepaid c w w' := by
  obtain ⟨hc, x, t, p, xp, n, w₁, reserved, hx, _, _, _, _, _, _, hcost, hbalance, _, hnone, rfl⟩ :=
    materialize_cases h
  obtain ⟨_, _, _, hplace, howner, hreserved, _, _⟩ := (hagree c hc).2 _ x hx rfl
  obtain ⟨_, _, hw₁, hpaid, _, _⟩ := cost_eq_ok hcost
  set raw := (undeliveredTicket event records).encode with hraw
  set w₂ := w₁.stored (undeliveredKey c ordinal) raw reserved with hw₂
  have hroot : w₁.root = w.root := by rw [hw₁]
  have hload : w₂.root.load c = w.root.load c + (charge raw + reserved) := by
    rw [hw₂, Work.load_stored_fresh rfl (hroot ▸ hnone), hroot]
  have hx₂ : w₂.root.records[(queueKey c queue).place]? = some x := by
    rw [hw₂, Work.get_stored, if_neg, hroot, hx]
    exact fun heq => place_ne hc rfl (by simp) heq.symm
  have hgone := Work.load_removed hx₂ howner
  have hunspent : unspent (w₂.removed (queueKey c queue) x).newCharge w₁.spent c =
      unspent w.newCharge w₁.spent c := by
    rw [Work.unspent_removed (.inr rfl), hw₂, Work.unspent_stored (.inr rfl), hw₁]
  have hsettled : (w₂.removed (queueKey c queue) x).settled.get c = true := by
    change w₁.settled.get c = true
    rw [hw₁]
    exact Two.get_set_self _ c true
  have hledger : (w₂.removed (queueKey c queue) x).root.ledger = w.root.ledger := by
    change w₁.root.ledger = _
    rw [hroot]
  refine ⟨?_, by rw [hledger], by rw [hledger], by rw [hledger], fun _ => hsettled, .inl hsettled⟩
  rw [Root.held_eq, Root.held_eq, hledger]
  change _ + _ + _ ≤ _ + _ + unspent _ w₁.spent c
  rw [hunspent]
  omega

theorem acknowledge_prepaid (howned : w.root.Owned) (h : acknowledge w c ordinal event records = .ok w') :
    Prepaid c w w' := by
  obtain ⟨hc, x, t, n, w₁, hx, _, _, _, hcost, hle, rfl⟩ := acknowledge_cases h
  obtain ⟨_, _, hw₁, hpaid, _, _⟩ := cost_eq_ok hcost
  have hroot : w₁.root = w.root := by rw [hw₁]
  have howner : x.owner = c := howned (undeliveredKey c ordinal) x hc rfl hx
  have hgone := Work.load_removed (w := w₁) (hroot ▸ hx) howner
  have hunspent : unspent (w₁.removed (undeliveredKey c ordinal) x).newCharge w₁.spent c =
      unspent w.newCharge w₁.spent c := by
    rw [Work.unspent_removed (.inr rfl), hw₁]
  have hsettled : (w₁.removed (undeliveredKey c ordinal) x).settled.get c = true := by
    change w₁.settled.get c = true
    rw [hw₁]
    exact Two.get_set_self _ c true
  have hledger : (w₁.removed (undeliveredKey c ordinal) x).root.ledger = w.root.ledger := by
    change w₁.root.ledger = _
    rw [hroot]
  rw [hroot] at hgone
  refine ⟨?_, by rw [hledger], by rw [hledger], by rw [hledger], fun _ => hsettled, .inl hsettled⟩
  rw [Root.held_eq, Root.held_eq, hledger]
  change _ + _ + _ ≤ _ + _ + unspent _ w₁.spent c
  rw [hunspent]
  omega

/-- The admission record of a frame is charged when it is stored, and not before. -/
theorem admit_prepaid {captures : Option (Id × Id)} {records' : List Key}
    (htracked : w.Tracked) (h : admitCapture w c event captures records = .ok (w', records')) :
    w'.root.load c + unspent w.newCharge w.spent c ≤
        w.root.load c + unspent w'.newCharge w'.spent c ∧ w'.Tracked := by
  rcases admit_eq_ok h with ⟨_, rfl, _⟩ | ⟨pair, _, hputs, _⟩
  · exact ⟨le_rfl, htracked⟩
  refine ⟨?_, hputs.tracked htracked⟩
  cases hputs with
  | same => exact le_rfl
  | replaced _ _ _ hmutable => exact absurd hmutable (by simp [Namespace.mutable])
  | fresh hx =>
    set k : Key := ⟨c, .admission, event⟩ with hk
    set value := admissionValue pair
    -- an ordinary key that is not stored has not been touched
    have huntouched : w.baselineCharge[k]? = none ∧ w.newCharge[k]? = none ∧ k ∉ w.spent := by
      have hnot : ¬ (w.baselineCharge[k]? ≠ none ∨ w.newCharge[k]? ≠ none ∨ k ∈ w.spent) := by
        intro htouched
        obtain ⟨y, hy⟩ := htracked k rfl htouched
        cases hx.symm.trans hy
      simpa only [not_or, ne_eq, not_not] using hnot
    have hload := Work.load_stored_fresh (w := w) (c := c) (k := k) rfl hx value 0
    have hnew : (w.stored k value 0).newCharge = w.newCharge.insert k (charge value) := by
      have hbase : w.baselineCharge.getD k 0 = 0 := by
        rw [Std.TreeMap.getD_eq_getD_getElem?, huntouched.1]
        rfl
      simp only [Work.stored, hx, hbase, Nat.sub_zero]
    have hunspent : unspent (w.stored k value 0).newCharge w.spent c =
        unspent w.newCharge w.spent c + charge value := by
      rw [hnew, unspent, Maps.weight_insert_of_none _ _ huntouched.2.1, if_pos ⟨rfl, rfl, huntouched.2.2⟩]
      rfl
    change _ + _ ≤ _ + unspent _ w.spent c
    omega

/-- A head frame that leaves gives its slot back. -/
theorem leave_guarded {head : Bool} (h : leave l ordinal head = .ok l') :
    l'.guarded ≤ l.guarded + tempCredit ∧ l'.pool = l.pool ∧ l'.pending ≤ l.pending ∧ l'.quota = l.quota := by
  obtain ⟨_, hhead, rfl⟩ | ⟨_, _, rfl⟩ := leave_eq_ok h
  · refine ⟨?_, rfl, le_rfl, rfl⟩
    unfold Ledger.guarded
    rw [hhead]
    exact le_rfl
  · exact ⟨Nat.le_add_right _ _, rfl, Nat.sub_le _ _, rfl⟩

theorem giveBack_guarded {repair : Bool} {spent : Nat} (h : giveBack l repair spent = .ok l') :
    l'.guarded ≤ l.guarded + (frameCredit - spent) ∧ l'.pool ≤ l.pool ∧ l'.pending = l.pending ∧
      l'.quota = l.quota := by
  obtain ⟨_, hout, rfl⟩ | ⟨_, rfl⟩ := giveBack_eq_ok h
  · refine ⟨?_, ?_, rfl, rfl⟩
    · unfold Ledger.guarded Ledger.grantBytes
      dsimp only
      omega
    · unfold Ledger.pool Ledger.grantBytes
      dsimp only
      omega
  · exact ⟨Nat.le_add_right _ _, le_rfl, rfl, rfl⟩

/-- A readable frame pays for its records; what a repaired frame did not spend is free again. -/
theorem readable_prepaid (hagree : Agree w.root) (htracked : w.Tracked)
    (h : readable w c ordinal event records = .ok w') : Prepaid c w w' := by
  obtain ⟨hc, x, s, xe, w₁, records', n, w₂, l, l', hx, hdecode, _, _, _, _, hadmit, hcost, hle,
    hleave, hback, rfl⟩ := readable_cases h
  obtain ⟨m, t, hform⟩ := (hagree c hc).1.form _ x hx rfl
  obtain rfl : s = t := Except.ok.inj (hdecode.symm.trans hform.decode)
  have hbalance := hform.balance
  obtain ⟨hadmitted, _⟩ := admit_prepaid htracked hadmit
  obtain ⟨_, _, hw₂, hpaid, _, _⟩ := cost_eq_ok hcost
  have hroot : w₂.root = w₁.root := by rw [hw₂]
  have hother : w₁.root.records[(pendingKey c ordinal).place]? = some x := by
    have hkeeps : w.Keeps (fun s => s = (⟨c, .admission, event⟩ : Key).tree) c w₁ := by
      rcases admit_eq_ok hadmit with ⟨_, rfl, _⟩ | ⟨pair, _, hputs, _⟩
      · exact .of_root_eq rfl
      · exact .of_puts rfl hputs
    rw [hkeeps.records _ fun heq => ?_, hx]
    exact absurd (Key.eq_of_tree_eq (j := pendingKey c ordinal) hc rfl heq).2 (by simp)
  set w₃ := setLedger w₂ c l' with hw₃
  have hx₃ : w₃.root.records[(pendingKey c ordinal).place]? = some x := by
    change w₂.root.records[_]? = _
    rw [hroot, hother]
  have hgone := Work.load_removed hx₃ hform.owner
  have hload₃ : w₃.root.load c = w₁.root.load c := by
    change w₂.root.load c = _
    rw [hroot]
  have hledger : (w₃.removed (pendingKey c ordinal) x).root.ledger.get c = l' := Two.get_set_self _ c l'
  have hunspent : unspent (w₃.removed (pendingKey c ordinal) x).newCharge w₂.spent c =
      unspent w₁.newCharge w₂.spent c := by
    rw [Work.unspent_removed (.inr rfl)]
    change unspent w₂.newCharge _ c = _
    rw [hw₂]
  have hsettled : (w₃.removed (pendingKey c ordinal) x).settled.get c = true := by
    change w₂.settled.get c = true
    rw [hw₂]
    exact Two.get_set_self _ c true
  -- what the ledger keeps back grows by the unspent rest and by the slot of a head frame
  obtain ⟨hguarded₁, hpool₁, hpending₁, hquota₁⟩ := leave_guarded hleave
  obtain ⟨hguarded, hpool, hpending, hquota⟩ := giveBack_guarded hback
  refine ⟨?_, ?_, ?_, ?_, fun _ => hsettled, .inl hsettled⟩
  · rw [Root.held_eq, Root.held_eq, hledger]
    change _ + _ + _ ≤ _ + _ + unspent _ w₂.spent c
    rw [hunspent]
    change x.reserved + x.charge + _ = _ at hbalance
    omega
  · rw [hledger]
    exact hpool.trans hpool₁.le
  · rw [hledger]
    exact hpending.le.trans hpending₁
  · rw [hledger]
    exact hquota.trans hquota₁

theorem apply_tracked (h : w.Tracked) (ha : apply w a = .ok w') : w'.Tracked := by
  have hc := (apply_moves ha).1
  refine apply_induction (I := Work.Tracked) ha h fun u v hmove hu => ?_
  cases hmove with
  | ledger => exact hu
  | stored => exact Work.tracked_stored hu _ _
  | @removed k hk hns =>
    have hlocal : k.ns.managed = true ∧ k.ns.global = false := by
      generalize k.ns = ns at hns
      fin_cases hns <;> exact ⟨rfl, rfl⟩
    exact Work.tracked_removed hu (hk ▸ hc) hlocal.1 hlocal.2 _
  | spent hknown => exact Work.tracked_spend hu _ hknown

/-- What the other context has to pay for is not touched. -/
theorem apply_unspent {d : UInt8} (hd : d ≤ 1) (hne : a.context ≠ d)
    (ha : apply w a = .ok w') : unspent w'.newCharge w'.spent d = unspent w.newCharge w.spent d ∧
      w'.settled.get d = w.settled.get d := by
  have hc := (apply_moves ha).1
  refine apply_induction (I := fun u => unspent u.newCharge u.spent d = unspent w.newCharge w.spent d ∧
    u.settled.get d = w.settled.get d) ha ⟨rfl, rfl⟩ fun u v hmove hu => ?_
  cases hmove with
  | ledger => exact hu
  | stored hk => exact ⟨(Work.unspent_stored (.inl (hk ▸ hne)) _ _ _).trans hu.1, hu.2⟩
  | removed hk => exact ⟨(Work.unspent_removed (.inl (hk ▸ hne)) _ _).trans hu.1, hu.2⟩
  | spent _ helse =>
    exact ⟨(helse d hne.symm).trans hu.1, (Two.get_set_of_ne _ _ hc hd hne.symm).trans hu.2⟩

theorem apply_prepaid_elsewhere {d : UInt8} (hd : d ≤ 1) (hne : a.context ≠ d)
    (howned : w.root.Owned) (ha : apply w a = .ok w') : Prepaid d w w' := by
  obtain ⟨_, hkeeps⟩ := apply_keeps ha
  obtain ⟨hunspent, hsettled⟩ := apply_unspent hd hne ha
  have hledger := hkeeps.ledger d hd hne.symm
  have hload := Root.load_of_sameOwned (apply_sameOwned howned hne ha)
  refine ⟨?_, by rw [hledger], by rw [hledger], by rw [hledger], fun hs => hsettled ▸ hs, .inr hunspent⟩
  rw [Root.held_eq, Root.held_eq, hledger, hload, hunspent]

end Credits

/-- The actions that settle a ticket or move credit that is already kept back. -/
def CreditAction.prepaid : CreditAction → Bool
  | .queue .. | .refill .. => false
  | .pending _ _ _ _ head _ => head
  | .grant .. | .cancelGrant .. | .materialize .. | .readable .. | .acknowledge ..
  | .capturePending .. => true

namespace Credits
variable {w w' : Work} {c : UInt8}

theorem apply_prepaid {a : CreditAction} (hc : c ≤ 1) (ha : a.prepaid = true) (hagree : Agree w.root)
    (howned : w.root.Owned) (htracked : w.Tracked) (h : apply w a = .ok w') : Prepaid c w w' := by
  by_cases hne : a.context = c
  swap
  · exact apply_prepaid_elsewhere hc hne howned h
  subst hne
  cases a with
  | queue c sequence id body => exact absurd ha (by simp [CreditAction.prepaid])
  | grant c id start stop => exact grant_prepaid h
  | cancelGrant c id => exact cancelGrant_prepaid h
  | refill c bytes => exact absurd ha (by simp [CreditAction.prepaid])
  | pending c ordinal event body head grant =>
    obtain rfl : head = true := ha
    exact pending_prepaid h
  | materialize c queue request ordinal event records => exact materialize_prepaid hagree h
  | readable c ordinal event records => exact readable_prepaid hagree htracked h
  | acknowledge c ordinal event records => exact acknowledge_prepaid howned h
  | capturePending c ordinal event original admission => exact capturePending_prepaid hagree h

theorem applyAll_prepaid {credits : List CreditAction} (hc : c ≤ 1)
    (hcredits : ∀ a ∈ credits, a.prepaid = true) (hagree : Agree w.root) (howned : w.root.Owned)
    (htracked : w.Tracked) (h : credits.foldlM apply w = .ok w') : Prepaid c w w' := by
  have hrun := Except.foldlM_invariant
    (fun u : Work => (Agree u.root ∧ u.root.Owned ∧ u.Tracked) ∧ Prepaid c w u) ?_ h
    ⟨⟨hagree, howned, htracked⟩, .refl c w⟩
  · exact hrun.2
  · rintro u a u' ha hu ⟨⟨hagree, howned, htracked⟩, hprepaid⟩
    exact ⟨⟨apply_agree hagree hu, apply_owned howned hu, apply_tracked htracked hu⟩,
      hprepaid.trans (apply_prepaid hc (hcredits a ha) hagree howned htracked hu)⟩

end Credits
end Kilogram
