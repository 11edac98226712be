import Kilogram.Vault.CreditFrame

/-!
# The ledger agrees with the stored tickets

The counters of a ledger are kept apart from the tickets they count.
-/

namespace Kilogram
open Credits

def pendingTree (c : UInt8) : Nat := c.toNat * 24 + Namespace.pending.code
def queueTree (c : UInt8) : Nat := c.toNat * 24 + Namespace.queue.code

/-- One for a pending ticket of `c` that meets `q`. -/
def pendingMeasure (c : UInt8) (q : Ticket → Bool) (p : Place) (x : Record) : Nat :=
  match Ticket.decode x.value with
  | .ok t => if p.tree = pendingTree c ∧ q t = true then 1 else 0
  | .error _ => 0

namespace Root

/-- The number of stored pending tickets of `c` that meet `q`. -/
def countPending (r : Root) (c : UInt8) (q : Ticket → Bool) : Nat := Maps.weight (pendingMeasure c q) r.records

/-- A head ticket of `c` is stored at ordinal `n`. -/
def HeadAt (r : Root) (c : UInt8) (n : UInt64) : Prop :=
  ∃ x t, r.records[(pendingKey c n).place]? = some x ∧ Ticket.decode x.value = .ok t ∧ t.head = true

/-- The stored form of a pending frame. -/
structure PendingForm (c : UInt8) (p : Place) (x : Record) (n : UInt64) (t : Ticket) : Prop where
  place : p = (pendingKey c n).place
  owner : x.owner = c
  value : x.value = t.encode
  wf : t.Wf
  stage : t.stage = 2
  balance : x.reserved + charge x.value + t.admissionPaid = frameCredit + tempCredit

variable {x : Record} {n : UInt64} {t : Ticket}

theorem PendingForm.decode {c : UInt8} {p : Place} (h : PendingForm c p x n t) : Ticket.decode x.value = .ok t := by
  rw [h.value, Ticket.decode_encode h.wf]

structure PendingTickets (r : Root) (c : UInt8) : Prop where
  form : ∀ p x, r.records[p]? = some x → p.tree = pendingTree c → ∃ n t, PendingForm c p x n t
  ordinary : (r.ledger.get c).pending = r.countPending c fun t => !t.head
  head : ∀ n, (r.ledger.get c).head = some n ↔ r.HeadAt c n
  repair : (r.ledger.get c).outstanding = frameCredit * r.countPending c fun t => t.repair
  grant : ∀ g, (r.ledger.get c).grant = some g → g.Inside

/-- The stored form of the queued texts: each keeps one frame of credit. -/
def QueueTickets (r : Root) (c : UInt8) : Prop := ∀ p x, r.records[p]? = some x → p.tree = queueTree c →
    ∃ n id body, p = (queueKey c n).place ∧ x.owner = c ∧ x.reserved = frameCredit ∧
      body.length ≤ 4096 ∧ x.value = (queueTicket id body).encode

variable {r r' : Root} {c : UInt8}

theorem QueueTickets.congr (h : r.QueueTickets c)
    (hrec : ∀ p : Place, p.tree = queueTree c → r'.records[p]? = r.records[p]?) :
    r'.QueueTickets c := by
  intro p x hx hp
  exact h p x (hrec p hp ▸ hx) hp

theorem countPending_congr (q : Ticket → Bool)
    (hrec : ∀ p : Place, p.tree = pendingTree c → r'.records[p]? = r.records[p]?) :
    r'.countPending c q = r.countPending c q := by
  apply Maps.weight_of_support
  intro p x hne
  have hp : p.tree = pendingTree c := by
    by_contra hp
    apply hne
    unfold pendingMeasure
    split
    · rw [if_neg fun h => hp h.1]
    · rfl
  rw [hrec p hp]

theorem headAt_congr (n : UInt64) (hrec : ∀ p : Place, p.tree = pendingTree c → r'.records[p]? = r.records[p]?) :
    r'.HeadAt c n ↔ r.HeadAt c n := by
  unfold HeadAt
  rw [hrec _ rfl]

/-- The tickets stay as they are, and the ledger keeps its counters. -/
theorem PendingTickets.congr (h : r.PendingTickets c)
    (hrec : ∀ p : Place, p.tree = pendingTree c → r'.records[p]? = r.records[p]?)
    (hpending : (r'.ledger.get c).pending = (r.ledger.get c).pending)
    (hhead : (r'.ledger.get c).head = (r.ledger.get c).head)
    (hout : (r'.ledger.get c).outstanding = (r.ledger.get c).outstanding)
    (hgrant : ∀ g, (r'.ledger.get c).grant = some g → g.Inside) : r'.PendingTickets c := by
  refine ⟨?_, ?_, ?_, ?_, hgrant⟩
  · intro p x hx hp
    exact h.form p x (hrec p hp ▸ hx) hp
  · rw [hpending, h.ordinary, countPending_congr _ hrec]
  · intro n
    rw [hhead, h.head n, headAt_congr n hrec]
  · rw [hout, h.repair, countPending_congr _ hrec]

theorem pendingMeasure_place {q : Ticket → Bool} (h : Ticket.decode x.value = .ok t) :
    pendingMeasure c q (pendingKey c n).place x = if q t then 1 else 0 := by
  have htree : (pendingKey c n).place.tree = pendingTree c := rfl
  simp only [pendingMeasure, h, htree, true_and]

theorem pendingKey_place_inj {m : UInt64} (h : (pendingKey c m).place = (pendingKey c n).place) :
    m = n := Key.ordinalBytes_inj (congrArg Place.bytes h)

theorem PendingTickets.insert (h : r.PendingTickets c) (hform : PendingForm c (pendingKey c n).place x n t)
    (hfree : r.records[(pendingKey c n).place]? = none)
    (hrec : r'.records = r.records.insert (pendingKey c n).place x)
    (hpending : (r'.ledger.get c).pending = (r.ledger.get c).pending + if t.head then 0 else 1)
    (hhead : (r'.ledger.get c).head = if t.head then some n else (r.ledger.get c).head)
    (hnone : t.head = true → (r.ledger.get c).head = none) (hout : (r'.ledger.get c).outstanding =
      (r.ledger.get c).outstanding + if t.repair then frameCredit else 0)
    (hgrant : ∀ g, (r'.ledger.get c).grant = some g → g.Inside) : r'.PendingTickets c := by
  have hcount : ∀ q : Ticket → Bool, r'.countPending c q = r.countPending c q + if q t then 1 else 0 := by
    intro q
    unfold countPending
    rw [hrec, Maps.weight_insert_of_none _ _ hfree, pendingMeasure_place hform.decode]
  refine ⟨?_, ?_, ?_, ?_, hgrant⟩
  · intro p y hy hp
    rw [hrec, Maps.get_insert] at hy
    split at hy
    · next heq =>
      cases hy
      exact ⟨n, t, heq ▸ hform⟩
    · exact h.form p y hy hp
  · rw [hpending, h.ordinary, hcount]
    cases t.head <;> rfl
  · intro m
    have hat : r'.HeadAt c m ↔ (m = n ∧ t.head = true) ∨ (m ≠ n ∧ r.HeadAt c m) := by
      unfold HeadAt
      rw [hrec]
      by_cases hm : m = n
      · subst hm
        simp only [Maps.get_insert, if_true, Option.some.injEq, true_and, ne_eq, not_true_eq_false,
          false_and, or_false]
        constructor
        · rintro ⟨y, s, rfl, hs, hh⟩
          rw [hform.decode] at hs
          exact Except.ok.inj hs ▸ hh
        · intro hh
          exact ⟨x, t, rfl, hform.decode, hh⟩
      · have hne : (pendingKey c m).place ≠ (pendingKey c n).place := fun heq =>
          hm (pendingKey_place_inj heq)
        rw [Maps.get_insert_of_ne _ _ hne]
        simp [hm]
    rw [hat, hhead]
    cases ht : t.head with
    | true =>
      have hnohead : ¬ r.HeadAt c m := by
        rw [← h.head m, hnone ht]
        simp
      simp [hnohead, eq_comm]
    | false =>
      have hmn : r.HeadAt c m → m ≠ n := by
        rintro ⟨y, s, hy, _⟩ rfl
        rw [hfree] at hy
        simp at hy
      simp only [Bool.false_eq_true, if_false, and_false, false_or]
      rw [h.head m]
      exact ⟨fun hm => ⟨hmn hm, hm⟩, fun hm => hm.2⟩
  · rw [hout, h.repair, hcount]
    cases t.repair <;> simp [Nat.mul_add]

/-- A frame's ticket is rewritten and keeps its place in the counters. -/
theorem PendingTickets.rewrite (h : r.PendingTickets c) {y : Record} {s : Ticket}
    (hold : r.records[(pendingKey c n).place]? = some y) (hdecode : Ticket.decode y.value = .ok s)
    (hform : PendingForm c (pendingKey c n).place x n t) (hhead : t.head = s.head)
    (hrepair : t.repair = s.repair) (hrec : r'.records = r.records.insert (pendingKey c n).place x)
    (hledger : r'.ledger = r.ledger) : r'.PendingTickets c := by
  have hcount : ∀ q : Ticket → Bool, q t = q s → r'.countPending c q = r.countPending c q := by
    intro q hq
    have hw := Maps.weight_insert_of_some (pendingMeasure c q) x hold
    rw [pendingMeasure_place hform.decode, pendingMeasure_place hdecode, hq] at hw
    unfold countPending
    rw [hrec]
    omega
  refine ⟨?_, ?_, ?_, ?_, by rw [hledger]; exact h.grant⟩
  · intro p z hz hp
    rw [hrec, Maps.get_insert] at hz
    split at hz
    · next heq =>
      cases hz
      exact ⟨n, t, heq ▸ hform⟩
    · exact h.form p z hz hp
  · rw [hledger, h.ordinary, hcount _ (by rw [hhead])]
  · intro m
    rw [hledger, h.head m]
    unfold HeadAt
    rw [hrec]
    by_cases hm : m = n
    · subst hm
      rw [hold, Maps.get_insert, if_pos rfl]
      simp only [Option.some.injEq]
      constructor
      · rintro ⟨z, u, rfl, hu, hh⟩
        rw [hdecode] at hu
        exact ⟨x, t, rfl, hform.decode, hhead.trans (Except.ok.inj hu ▸ hh)⟩
      · rintro ⟨z, u, rfl, hu, hh⟩
        rw [hform.decode] at hu
        exact ⟨y, s, rfl, hdecode, hhead.symm.trans (Except.ok.inj hu ▸ hh)⟩
    · have hne : (pendingKey c m).place ≠ (pendingKey c n).place := fun heq =>
        hm (pendingKey_place_inj heq)
      rw [Maps.get_insert_of_ne _ _ hne]
  · rw [hledger, h.repair, hcount _ (by rw [hrepair])]

theorem PendingTickets.erase (h : r.PendingTickets c)
    (hold : r.records[(pendingKey c n).place]? = some x) (hdecode : Ticket.decode x.value = .ok t)
    (hrec : ∀ p : Place, p.tree = pendingTree c → r'.records[p]? = (r.records.erase (pendingKey c n).place)[p]?)
    (hpending : (r'.ledger.get c).pending + (if t.head then 0 else 1) = (r.ledger.get c).pending)
    (hhead : (r'.ledger.get c).head = if t.head then none else (r.ledger.get c).head)
    (hout : (r'.ledger.get c).outstanding + (if t.repair then frameCredit else 0) = (r.ledger.get c).outstanding)
    (hgrant : ∀ g, (r'.ledger.get c).grant = some g → g.Inside) : r'.PendingTickets c := by
  have hcount : ∀ q : Ticket → Bool, r'.countPending c q + (if q t then 1 else 0) = r.countPending c q := by
    intro q
    have hsame : r'.countPending c q = Maps.weight (pendingMeasure c q) (r.records.erase (pendingKey c n).place) :=
      countPending_congr (r := { r with records := r.records.erase (pendingKey c n).place }) q hrec
    rw [hsame, ← pendingMeasure_place (c := c) (n := n) hdecode]
    exact Maps.weight_erase_of_some _ hold
  refine ⟨?_, ?_, ?_, ?_, hgrant⟩
  · intro p z hz hp
    rw [hrec p hp, Maps.get_erase] at hz
    split at hz
    · simp at hz
    · exact h.form p z hz hp
  · have hq := hcount fun s => !s.head
    have := h.ordinary
    cases hh : t.head <;> simp only [hh, Bool.not_false, Bool.not_true, Bool.false_eq_true,
      if_true, if_false] at hq hpending <;> omega
  · intro m
    have hat : r'.HeadAt c m ↔ m ≠ n ∧ r.HeadAt c m := by
      unfold HeadAt
      rw [hrec _ rfl]
      by_cases hm : m = n
      · subst hm
        simp
      · have hne : (pendingKey c m).place ≠ (pendingKey c n).place := fun heq =>
          hm (pendingKey_place_inj heq)
        rw [Maps.get_erase_of_ne _ hne]
        simp [hm]
    rw [hat, ← h.head m, hhead]
    cases hh : t.head with
    | true =>
      have hn : (r.ledger.get c).head = some n := (h.head n).mpr ⟨x, t, hold, hdecode, hh⟩
      rw [hn]
      simp [eq_comm]
    | false =>
      have hmn : (r.ledger.get c).head = some m → m ≠ n := by
        rintro hm rfl
        obtain ⟨y, s, hy, hs, hhs⟩ := (h.head m).mp hm
        cases hold.symm.trans hy
        cases hdecode.symm.trans hs
        exact absurd (hh.symm.trans hhs) (by decide)
      simp only [Bool.false_eq_true, if_false]
      exact ⟨fun hm => ⟨hmn hm, hm⟩, fun hm => hm.2⟩
  · have hq := hcount fun s => s.repair
    have := h.repair
    cases hh : t.repair <;> simp only [hh, Bool.false_eq_true, if_true, if_false] at hq hout
    · rw [Nat.add_zero] at hq hout
      rw [hq, hout, this]
    · rw [← hq, Nat.mul_add, Nat.mul_one] at this
      omega

end Root

namespace Credits
variable {w w' : Work} {c d : UInt8}

theorem tree_eq_pendingTree {k : Key} (hd : d ≤ 1) (h : k.tree = pendingTree d) :
    k.context = d ∧ k.ns = .pending := by
  obtain ⟨hc, hns⟩ := Key.eq_of_tree_eq (j := pendingKey d 0) (k := k) hd rfl h.symm
  exact ⟨hc.symm, hns.symm⟩

theorem tree_eq_queueTree {k : Key} (hd : d ≤ 1) (h : k.tree = queueTree d) : k.context = d ∧ k.ns = .queue := by
  obtain ⟨hc, hns⟩ := Key.eq_of_tree_eq (j := queueKey d 0) (k := k) hd rfl h.symm
  exact ⟨hc.symm, hns.symm⟩

/-- The ticket invariants of both contexts. -/
def Agree (r : Root) : Prop := ∀ d, d ≤ 1 → r.PendingTickets d ∧ r.QueueTickets d

theorem pendingTicket_wf (event : Id) {body : Bytes} {head : Bool} {grant : Option Id}
    (hbody : body.length ≤ 16 * 1024) (hhead : head = true → grant ≠ none) :
    (pendingTicket event body head grant).Wf := by
  have hlen : (pendingTicket event body head grant).encode.length = body.length + 53 := by
    simp [Ticket.encode, pendingTicket, Ticket.encodeCaptures]
    omega
  refine ⟨⟨by simp [pendingTicket], by simp [pendingTicket]⟩, hbody, Nat.zero_le _, fun _ => rfl,
    fun h => absurd rfl h, ?_, fun _ => ?_⟩
  · intro h
    exact Option.isSome_iff_ne_none.mpr (hhead h)
  · have : (pendingTicket event body head grant).admissionPaid = 0 := rfl
    unfold charge tempCredit nodeCap
    omega

/-- The other context does not notice an action. -/
theorem Agree.other (h : Agree w.root) (hc : c ≤ 1) (hk : w.Keeps (ticketTree c) c w') (hd : d ≤ 1)
    (hne : d ≠ c) : w'.root.PendingTickets d ∧ w'.root.QueueTickets d := by
  have hcd : d.toNat ≠ c.toNat := fun heq => hne (UInt8.toNat_inj.mp heq)
  have hc' : c.toNat ≤ 1 := hc
  have hd' : d.toNat ≤ 1 := hd
  have hpending : ¬ ticketTree c (pendingTree d) := by
    simp only [ticketTree, List.mem_cons, List.not_mem_nil, or_false, pendingTree]
    rintro ⟨ns, rfl | rfl | rfl | rfl, heq⟩ <;> simp only [Namespace.code] at heq <;> omega
  have hqueue : ¬ ticketTree c (queueTree d) := by
    simp only [ticketTree, List.mem_cons, List.not_mem_nil, or_false, queueTree]
    rintro ⟨ns, rfl | rfl | rfl | rfl, heq⟩ <;> simp only [Namespace.code] at heq <;> omega
  have hl := hk.ledger d hd hne
  obtain ⟨hp, hq⟩ := h d hd
  refine ⟨hp.congr ?_ (by rw [hl]) (by rw [hl]) (by rw [hl]) (by rw [hl]; exact hp.grant), hq.congr ?_⟩
  · intro p htree
    exact hk.records p (htree ▸ hpending)
  · intro p htree
    exact hk.records p (htree ▸ hqueue)

theorem pendingTickets_of_same {r r' : Root} (h : r.PendingTickets c)
    (hrec : ∀ p : Place, p.tree = pendingTree c → r'.records[p]? = r.records[p]?)
    (hledger : r'.ledger.get c = r.ledger.get c) : r'.PendingTickets c := by
  refine h.congr hrec ?_ ?_ ?_ ?_
  · rw [hledger]
  · rw [hledger]
  · rw [hledger]
  · rw [hledger]
    exact h.grant

theorem pendingTree_ne : pendingTree c ≠ queueTree c ∧ (∀ n, pendingTree c ≠ (undeliveredKey c n).tree) ∧
    ∀ event, pendingTree c ≠ (⟨c, .admission, event⟩ : Key).tree := by
  have hu : ∀ n, (undeliveredKey c n).tree = c.toNat * 24 + 6 := fun _ => rfl
  have ha : ∀ event, (⟨c, .admission, event⟩ : Key).tree = c.toNat * 24 + 20 := fun _ => rfl
  simp only [pendingTree, queueTree, Namespace.code, hu, ha]
  exact ⟨by omega, fun _ => by omega, fun _ => by omega⟩

theorem queueTree_ne : (∀ n, queueTree c ≠ (undeliveredKey c n).tree) ∧
    ∀ event, queueTree c ≠ (⟨c, .admission, event⟩ : Key).tree := by
  have hu : ∀ n, (undeliveredKey c n).tree = c.toNat * 24 + 6 := fun _ => rfl
  have ha : ∀ event, (⟨c, .admission, event⟩ : Key).tree = c.toNat * 24 + 20 := fun _ => rfl
  simp only [queueTree, Namespace.code, hu, ha]
  exact ⟨fun _ => by omega, fun _ => by omega⟩

theorem queue_agree {sequence : UInt64} {id : Id} {body : Bytes} (h : Agree w.root)
    (hq : queue w c sequence id body = .ok w') :
    w'.root.PendingTickets c ∧ w'.root.QueueTickets c := by
  obtain ⟨hc, hlen, _, ⟨rfl, _⟩ | ⟨_, rfl⟩⟩ := queue_cases hq
  · exact h c hc
  · obtain ⟨hp, hqueue⟩ := h c hc
    refine ⟨pendingTickets_of_same hp (fun p htree => ?_) rfl, ?_⟩
    · exact Work.get_stored_of_tree_ne (htree ▸ pendingTree_ne.1) _ _
    intro p x hx htree
    rw [Work.get_stored] at hx
    split at hx
    · next heq =>
      cases hx
      exact ⟨sequence, id, body, heq.symm, rfl, rfl, hlen, rfl⟩
    · exact hqueue p x hx htree

/-- Only the ledger changes, and it keeps its counters. -/
theorem ledger_agree {l : Ledger} (h : Agree w.root) (hc : c ≤ 1)
    (hpending : l.pending = (w.root.ledger.get c).pending)
    (hhead : l.head = (w.root.ledger.get c).head)
    (hout : l.outstanding = (w.root.ledger.get c).outstanding)
    (hgrant : ∀ g, l.grant = some g → g.Inside) :
    (setLedger w c l).root.PendingTickets c ∧ (setLedger w c l).root.QueueTickets c := by
  obtain ⟨hp, hq⟩ := h c hc
  have hget : (setLedger w c l).root.ledger.get c = l := Two.get_set_self _ _ _
  refine ⟨hp.congr (fun _ _ => rfl) ?_ ?_ ?_ ?_, hq⟩
  · rw [hget, hpending]
  · rw [hget, hhead]
  · rw [hget, hout]
  · rw [hget]
    exact hgrant

variable {ordinal : UInt64} {event : Id}

theorem pending_agree {body : Bytes} {head : Bool} {grant : Option Id} (h : Agree w.root)
    (hp : pending w c ordinal event body head grant = .ok w') :
    w'.root.PendingTickets c ∧ w'.root.QueueTickets c := by
  obtain ⟨hc, hlen, hhead, ⟨rfl, _⟩ | ⟨l, l', reserved, hfree, henter, hdraw, hbalance, rfl⟩⟩ := pending_cases hp
  · exact h c hc
  obtain ⟨hpend, hq⟩ := h c hc
  set t := pendingTicket event body head grant with ht
  refine ⟨?_, hq.congr fun p htree => Work.get_stored_of_tree_ne (htree ▸ Ne.symm pendingTree_ne.1) _ _⟩
  have hform : Root.PendingForm c (pendingKey c ordinal).place ⟨t.encode, reserved, c⟩ ordinal t :=
    ⟨rfl, rfl, rfl, pendingTicket_wf event hlen hhead, rfl, by
      have : t.admissionPaid = 0 := rfl
      dsimp only
      omega⟩
  have hget : ((setLedger w c l').stored (pendingKey c ordinal) t.encode reserved).root.ledger.get c =
      l' := Two.get_set_self _ _ _
  have hcounters : l'.pending = (w.root.ledger.get c).pending + (if head then 0 else 1) ∧
      l'.head = (if head then some ordinal else (w.root.ledger.get c).head) ∧
      (head = true → (w.root.ledger.get c).head = none) ∧
      l'.outstanding = (w.root.ledger.get c).outstanding + (if grant.isSome then frameCredit else 0) ∧
      ∀ g, l'.grant = some g → g.Inside := by
    have hdrawn : l'.pending = l.pending ∧ l'.head = l.head ∧
        l'.outstanding = l.outstanding + (if grant.isSome then frameCredit else 0) ∧
        ((∀ g, l.grant = some g → g.Inside) → ∀ g, l'.grant = some g → g.Inside) := by
      rcases draw_eq_ok hdraw with ⟨rfl, rfl⟩ | ⟨id, g, b, rfl, hg, _, rfl⟩
      · exact ⟨rfl, rfl, rfl, fun hin => hin⟩
      · refine ⟨rfl, rfl, rfl, fun hin g' hg' => ?_⟩
        cases hg'
        exact (hin g hg).take b
    obtain ⟨d1, d2, d3, d4⟩ := hdrawn
    rcases enter_eq_ok henter with ⟨rfl, hnone, rfl⟩ | ⟨rfl, _, rfl⟩
    · exact ⟨d1, d2, fun _ => hnone, d3, d4 hpend.grant⟩
    · exact ⟨d1, d2, fun h => absurd h (by decide), d3, d4 hpend.grant⟩
  obtain ⟨h1, h2, h3, h4, h5⟩ := hcounters
  refine hpend.insert hform hfree rfl ?_ ?_ h3 ?_ ?_
  · rw [hget]
    exact h1
  · rw [hget]
    exact h2
  · rw [hget]
    exact h4
  · rw [hget]
    exact h5

theorem length_encode_capture (t : Ticket) (captures : Id × Id) (paid : Nat) (ht : t.captures = none) :
    { t with captures := some captures, admissionPaid := paid }.encode.length = t.encode.length + 64 := by
  simp only [Ticket.encode, ht, Ticket.encodeCaptures, List.length_cons, List.length_append,
    Id.length_bytes, Bytes.length_ofNat, List.length_nil]
  omega

/-- The rewritten ticket is longer, so a first capture stores it. -/
theorem stored_of_capture {t : Ticket} {captures : Id × Id} {paid reserved : Nat}
    {x : Record} (hx : w.root.records[(pendingKey c ordinal).place]? = some x)
    (hvalue : x.value = t.encode) (hnone : t.captures = none) (hputs : w.Puts (pendingKey c ordinal)
      { t with captures := some captures, admissionPaid := paid }.encode reserved true w') :
    w' = w.stored (pendingKey c ordinal)
      { t with captures := some captures, admissionPaid := paid }.encode reserved := by
  cases hputs with
  | same y hy hsame =>
    obtain rfl : x = y := Option.some.inj (hx.symm.trans hy)
    have hlen := length_encode_capture t captures paid hnone
    have := congrArg List.length (hvalue.symm.trans hsame)
    omega
  | fresh => rfl
  | replaced => rfl

theorem capturePending_agree {original admission : Id} (h : Agree w.root)
    (hcap : capturePending w c ordinal event original admission = .ok w') :
    w'.root.PendingTickets c ∧ w'.root.QueueTickets c := by
  obtain ⟨hc, x, s, hx, hdecode, _, _, ⟨rfl, _⟩ | ⟨hnone, _, hstep⟩⟩ := capturePending_cases hcap
  · exact h c hc
  obtain ⟨hpend, hq⟩ := h c hc
  obtain ⟨paid, reserved, spent, _, hfull, hbalance, _, _, hputs⟩ := hstep
  obtain ⟨n, t, hform⟩ := hpend.form _ x hx rfl
  obtain rfl : s = t := Except.ok.inj (hdecode.symm.trans hform.decode)
  obtain rfl : ordinal = n := Root.pendingKey_place_inj hform.place
  have hlen := length_encode_capture s (original, admission) paid hnone
  have hold := hform.balance
  have hpaid : s.admissionPaid = 0 := hform.wf.unpaid hnone
  rw [hform.value] at hold
  set t := { s with captures := some (original, admission), admissionPaid := paid } with ht
  have hwf : t.Wf := by
    have hs := hform.wf
    refine ⟨hs.stage, hs.body, ?_, fun hn => absurd hn (by simp [ht]), fun hst => ?_, hs.repaired, fun _ => hfull⟩
    · have : charge t.encode + t.admissionPaid ≤ tempCredit := hfull
      omega
    · exact absurd hform.stage hst
  have hform' : Root.PendingForm c (pendingKey c ordinal).place ⟨t.encode, reserved, c⟩ ordinal t :=
    ⟨rfl, rfl, rfl, hwf, hform.stage, by
      have : t.admissionPaid = paid := rfl
      unfold charge at hold hbalance ⊢
      dsimp only
      omega⟩
  have hstored : w'.root.records = w.root.records.insert (pendingKey c ordinal).place
      ⟨t.encode, reserved, c⟩ ∧ w'.root.ledger = w.root.ledger := by
    rw [stored_of_capture (w := { w with spent, settled := w.settled.set c true }) hx hform.value hnone
      hputs]
    exact ⟨rfl, rfl⟩
  refine ⟨hpend.rewrite hx hdecode hform' rfl rfl hstored.1 hstored.2, hq.congr fun p htree => ?_⟩
  rw [hstored.1, Maps.get_insert_of_ne]
  rintro rfl
  exact pendingTree_ne.1 htree

theorem materialize_agree {queue : UInt64} {request : Id} {records : List Key} (h : Agree w.root)
    (hm : materialize w c queue request ordinal event records = .ok w') :
    w'.root.PendingTickets c ∧ w'.root.QueueTickets c := by
  obtain ⟨hc, x, t, p, xp, n, w₁, reserved, _, _, _, _, _, _, _, hcost, _, _, _, rfl⟩ := materialize_cases hm
  obtain ⟨_, _, rfl, _⟩ := cost_eq_ok hcost
  obtain ⟨hpend, hq⟩ := h c hc
  refine ⟨pendingTickets_of_same hpend (fun p htree => ?_) rfl, fun p y hy htree => ?_⟩
  · rw [Work.get_removed_of_tree_ne (htree ▸ pendingTree_ne.1),
      Work.get_stored_of_tree_ne (htree ▸ pendingTree_ne.2.1 ordinal)]
  · rw [Work.get_removed] at hy
    split at hy
    · simp at hy
    · rw [Work.get_stored_of_tree_ne (htree ▸ queueTree_ne.1 ordinal)] at hy
      exact hq p y hy htree

theorem acknowledge_agree {records : List Key} (h : Agree w.root)
    (ha : acknowledge w c ordinal event records = .ok w') :
    w'.root.PendingTickets c ∧ w'.root.QueueTickets c := by
  obtain ⟨hc, x, t, n, w₁, _, _, _, _, hcost, _, rfl⟩ := acknowledge_cases ha
  obtain ⟨_, _, rfl, _⟩ := cost_eq_ok hcost
  obtain ⟨hpend, hq⟩ := h c hc
  refine ⟨pendingTickets_of_same hpend (fun p htree => ?_) rfl, hq.congr fun p htree => ?_⟩
  · exact Work.get_removed_of_tree_ne (htree ▸ pendingTree_ne.2.1 ordinal) x
  · exact Work.get_removed_of_tree_ne (htree ▸ queueTree_ne.1 ordinal) x

theorem readable_agree {records : List Key} (h : Agree w.root) (hr : readable w c ordinal event records = .ok w') :
    w'.root.PendingTickets c ∧ w'.root.QueueTickets c := by
  obtain ⟨hc, x, t, xe, w₁, records', n, w₂, l, l', hx, hdecode, _, _, _, _, hadmit, hcost, _,
    hleave, hback, rfl⟩ := readable_cases hr
  obtain ⟨_, _, rfl, _⟩ := cost_eq_ok hcost
  obtain ⟨hpend, hq⟩ := h c hc
  have hadmitted : ∀ p : Place, p.tree ≠ (⟨c, .admission, event⟩ : Key).tree →
      w₁.root.records[p]? = w.root.records[p]? := by
    intro p hp
    rcases admit_eq_ok hadmit with ⟨_, rfl, _⟩ | ⟨pair, _, hputs, _⟩
    · rfl
    · cases hputs with
      | same => rfl
      | fresh | replaced => exact Work.get_stored_of_tree_ne hp _ _
  refine ⟨?_, hq.congr fun p htree => ?_⟩
  · have hget : ((setLedger { w₁ with spent := w₁.spent ∪ records'.toFinset
                                      settled := w₁.settled.set c true } c l').removed
        (pendingKey c ordinal) x).root.ledger.get c = l' := Two.get_set_self _ _ _
    have hcounters : l'.pending + (if t.head then 0 else 1) = (w.root.ledger.get c).pending ∧
        l'.head = (if t.head then none else (w.root.ledger.get c).head) ∧
        l'.outstanding + (if t.repair then frameCredit else 0) = (w.root.ledger.get c).outstanding ∧
        l'.grant = (w.root.ledger.get c).grant := by
      have hl : l.pending + (if t.head then 0 else 1) = (w.root.ledger.get c).pending ∧
          l.head = (if t.head then none else (w.root.ledger.get c).head) ∧
          l.outstanding = (w.root.ledger.get c).outstanding ∧
          l.grant = (w.root.ledger.get c).grant := by
        rcases leave_eq_ok hleave with ⟨hh, _, rfl⟩ | ⟨hh, hone, rfl⟩
        · rw [hh]
          exact ⟨rfl, rfl, rfl, rfl⟩
        · rw [hh]
          exact ⟨Nat.sub_add_cancel hone, rfl, rfl, rfl⟩
      rcases giveBack_eq_ok hback with ⟨hrep, hle, rfl⟩ | ⟨hrep, rfl⟩
      · refine ⟨hl.1, hl.2.1, ?_, hl.2.2.2⟩
        rw [hrep, ← hl.2.2.1]
        exact Nat.sub_add_cancel hle
      · refine ⟨hl.1, hl.2.1, ?_, hl.2.2.2⟩
        rw [hrep, ← hl.2.2.1]
        rfl
    obtain ⟨h1, h2, h3, h4⟩ := hcounters
    refine hpend.erase hx hdecode (fun p htree => ?_) ?_ ?_ ?_ ?_
    · rw [Work.get_removed, Maps.get_erase]
      split
      · rfl
      · exact hadmitted p (htree ▸ pendingTree_ne.2.2 event)
    · rw [hget]
      exact h1
    · rw [hget]
      exact h2
    · rw [hget]
      exact h3
    · rw [hget, h4]
      exact hpend.grant
  · rw [Work.get_removed_of_tree_ne (htree ▸ Ne.symm pendingTree_ne.1)]
    exact hadmitted p (htree ▸ queueTree_ne.2 event)

theorem apply_agree {a : CreditAction} (h : Agree w.root) (ha : apply w a = .ok w') : Agree w'.root := by
  obtain ⟨hc, hkeeps⟩ := apply_keeps ha
  intro d hd
  by_cases hne : d = a.context
  · subst hne
    cases a with
    | queue c sequence id body => exact queue_agree h ha
    | grant c id start stop =>
      obtain ⟨_, rfl | ⟨g, _, hg, _, _, _, _, rfl⟩⟩ := grant_cases ha
      · exact h c hc
      · refine ledger_agree h hc rfl rfl rfl ?_
        rintro g' hg'
        exact Option.some.inj hg' ▸ hg
    | cancelGrant c id =>
      obtain ⟨_, g, _, rfl⟩ := cancelGrant_cases ha
      exact ledger_agree h hc rfl rfl rfl (by simp)
    | refill c bytes =>
      obtain ⟨_, rfl⟩ := refill_cases ha
      exact ledger_agree h hc rfl rfl rfl ((h c hc).1.grant)
    | pending c ordinal event body head grant => exact pending_agree h ha
    | materialize c queue request ordinal event records => exact materialize_agree h ha
    | readable c ordinal event records => exact readable_agree h ha
    | acknowledge c ordinal event records => exact acknowledge_agree h ha
    | capturePending c ordinal event original admission => exact capturePending_agree h ha
  · exact h.other hc hkeeps hd hne

theorem put_agree {k : Key} {value : Bytes} {reserved : Nat} {internal : Bool} (h : Agree w.root)
    (hk : k.ns.managed = false) (hput : w.put k value reserved internal = .ok w') :
    Agree w'.root := by
  obtain ⟨hc, _, hputs⟩ := Work.puts_of_put hput
  have hstored : Agree (w.stored k value reserved).root := by
    intro d hd
    obtain ⟨hp, hq⟩ := h d hd
    refine ⟨pendingTickets_of_same hp (fun p htree => ?_) rfl, hq.congr fun p htree => ?_⟩
    · refine Work.get_stored_of_tree_ne (fun heq => ?_) _ _
      have := (tree_eq_pendingTree hd (heq.symm.trans htree)).2
      exact absurd (this ▸ hk) (by decide)
    · refine Work.get_stored_of_tree_ne (fun heq => ?_) _ _
      have := (tree_eq_queueTree hd (heq.symm.trans htree)).2
      exact absurd (this ▸ hk) (by decide)
  cases hputs with
  | same => exact h
  | fresh | replaced => exact hstored

end Credits
end Kilogram
