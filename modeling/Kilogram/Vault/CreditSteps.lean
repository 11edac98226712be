import Kilogram.Vault.Credits

/-!
# What each credit transition does

One lemma for each action says everything a successful run of it can have done to the working state.
-/

namespace Kilogram.Credits
open Except (ok_iff pure_eq_ok throw_ne_ok)

abbrev queueKey (c : UInt8) (n : UInt64) : Key := ⟨c, .queue, ordinalBytes n⟩
abbrev pendingKey (c : UInt8) (n : UInt64) : Key := ⟨c, .pending, ordinalBytes n⟩
abbrev undeliveredKey (c : UInt8) (n : UInt64) : Key := ⟨c, .undelivered, ordinalBytes n⟩

variable {w w' : Work} {c : UInt8}
variable {k : Key} {e e' : Evidence} {body : Bytes} {l l' : Ledger}

theorem ticket_eq_ok {stage : UInt8} {id : Id} {t : Ticket} (h : ticket w k stage id = .ok t) :
    k.context ≤ 1 ∧ (∃ x, w.root.records[k.place]? = some x ∧ Ticket.decode x.value = .ok t) ∧
      t.stage = stage ∧ t.id = id := by
  simp only [ticket, ok_iff, not_or, not_not] at h
  obtain ⟨o, hget, raw, rfl, t, hdecode, _, ⟨hstage, hid⟩, rfl⟩ := h
  obtain ⟨hc, x, hx, _, rfl⟩ := Root.get_eq_some hget
  exact ⟨hc, ⟨x, hx, hdecode⟩, hstage, hid⟩

/-- The new charges of a context's ordinary records that no action has paid. -/
def unspent (newCharge : Std.TreeMap Key Nat) (spent : Finset Key) (c : UInt8) : Nat :=
  Maps.weight (fun k n => if k.context = c ∧ k.ns.managed = false ∧ k ∉ spent then n else 0) newCharge

/-- Paying for one record takes what it owes off the unpaid charges. -/
theorem unspent_insert (spent : Finset Key) (hk : k.context = c) (hm : k.ns.managed = false) :
    unspent w.newCharge (insert k spent) c + owed w spent k = unspent w.newCharge spent c := by
  have hchange := Maps.weight_change_at
    (f := fun j n => if j.context = c ∧ j.ns.managed = false ∧ j ∉ insert k spent then n else 0)
    (g := fun j n => if j.context = c ∧ j.ns.managed = false ∧ j ∉ spent then n else 0)
    w.newCharge k (by
      intro j n hj
      simp [Finset.mem_insert, hj])
  unfold unspent owed
  rcases hget : w.newCharge[k]? with _ | n
  · rw [hget] at hchange
    simp only [Option.elim_none, Nat.add_zero] at hchange
    rw [hchange]
    simp
  · rw [hget] at hchange
    simp only [Option.elim_some, Finset.mem_insert_self, not_true_eq_false, and_false,
      if_false, hk, hm, true_and] at hchange
    rw [Option.getD_some]
    by_cases hs : k ∈ spent
    · simp [hs]
    · simpa [hs] using hchange

theorem unspent_insert_of_ne {d : UInt8} (newCharge : Std.TreeMap Key Nat) (spent : Finset Key) (hk : k.context ≠ d) :
    unspent newCharge (insert k spent) d = unspent newCharge spent d := by
  apply Maps.weight_congr
  intro j n _
  by_cases hj : j = k
  · subst hj
    simp [hk]
  · simp [Finset.mem_insert, hj]

/-- What a pass over cited records has established. -/
structure Cites (w : Work) (c : UInt8) (event : Id) (records : List Key) (e e' : Evidence) : Prop where
  known : ∀ k ∈ records, k.context = c ∧ k.ns.managed = false ∧ ∃ x, w.root.records[k.place]? = some x
  spent : e'.spent = e.spent ∪ records.toFinset
  paid : e'.total + unspent w.newCharge e'.spent c = e.total + unspent w.newCharge e.spent c
  elsewhere : ∀ d, d ≠ c → unspent w.newCharge e'.spent d = unspent w.newCharge e.spent d
  hasEvent : e'.event = true → e.event = true ∨ (⟨c, .event, event⟩ : Key) ∈ records
  hasProjection : e'.projection = true → e.projection = true ∨ (⟨c, .projection, event⟩ : Key) ∈ records

variable {event : Id} {records : List Key} {ordinal : UInt64}

theorem Evidence.add_eq_ok (h : e.add w c event k = .ok e') : c ≤ 1 ∧ Cites w c event [k] e e' := by
  simp only [Evidence.add, ok_iff, addOr_eq_ok, not_or, not_not, Bool.not_eq_true] at h
  obtain ⟨_, ⟨hk, hdistinct, hm⟩, found, hget, _, hfound, _, ⟨_, rfl⟩, rfl⟩ := h
  obtain ⟨v, rfl⟩ := Option.ne_none_iff_exists'.mp hfound
  obtain ⟨hc, x, hx, _, _⟩ := Root.get_eq_some hget
  refine ⟨hk ▸ hc, ⟨?_, ?_, ?_, ?_, ?_, ?_⟩⟩
  · intro j hj
    obtain rfl := List.mem_singleton.mp hj
    exact ⟨hk, hm, x, hx⟩
  · rw [List.toFinset_cons, List.toFinset_nil, insert_empty_eq, Finset.union_comm]
    rfl
  · have := unspent_insert (w := w) e.spent hk hm
    dsimp only
    omega
  · intro d hd
    exact unspent_insert_of_ne _ _ (hk ▸ Ne.symm hd)
  · simp only [Bool.or_eq_true, Bool.and_eq_true, decide_eq_true_eq, List.mem_singleton]
    rintro (h | ⟨hns, hb⟩)
    · exact .inl h
    · exact .inr (by rw [← hk, ← hns, ← hb])
  · simp only [Bool.or_eq_true, Bool.and_eq_true, decide_eq_true_eq, List.mem_singleton]
    rintro (h | ⟨hns, hb⟩)
    · exact .inl h
    · exact .inr (by rw [← hk, ← hns, ← hb])

theorem Cites.trans {xs ys : List Key} {e'' : Evidence}
    (h : Cites w c event xs e e') (h' : Cites w c event ys e' e'') :
    Cites w c event (xs ++ ys) e e'' := by
  refine ⟨?_, ?_, h'.paid.trans h.paid, fun d hd => (h'.elsewhere d hd).trans (h.elsewhere d hd), ?_, ?_⟩
  · intro k hk
    exact (List.mem_append.mp hk).elim (h.known k) (h'.known k)
  · rw [h'.spent, h.spent, List.toFinset_append, Finset.union_assoc]
  · intro he
    rcases h'.hasEvent he with he | he
    · exact (h.hasEvent he).imp_right (List.mem_append_left ys)
    · exact .inr (List.mem_append_right xs he)
  · intro he
    rcases h'.hasProjection he with he | he
    · exact (h.hasProjection he).imp_right (List.mem_append_left ys)
    · exact .inr (List.mem_append_right xs he)

theorem cites_of_foldlM (records : List Key)
    (h : records.foldlM (Evidence.add w c event) e = .ok e') : Cites w c event records e e' := by
  induction records generalizing e with
  | nil =>
    obtain rfl := pure_eq_ok.mp h
    exact ⟨by simp, by simp, rfl, fun _ _ => rfl, .inl, .inl⟩
  | cons k ks ih =>
    simp only [List.foldlM_cons, ok_iff] at h
    obtain ⟨e₁, hadd, h⟩ := h
    exact (Evidence.add_eq_ok hadd).2.trans (ih h)

/-- The cost of the cited records comes off the unpaid charges, and the context has settled. -/
theorem cost_eq_ok {receipt : Bool} {n : Nat} (h : cost w c event records receipt = .ok (n, w')) :
    c ≤ 1 ∧ (∀ k ∈ records, k.context = c ∧ k.ns.managed = false ∧ ∃ x, w.root.records[k.place]? = some x) ∧
      w' = { w with spent := w.spent ∪ records.toFinset, settled := w.settled.set c true } ∧
      n + unspent w.newCharge w'.spent c = unspent w.newCharge w.spent c ∧
      (∀ d, d ≠ c → unspent w.newCharge w'.spent d = unspent w.newCharge w.spent d) ∧
      (receipt = false → (⟨c, .event, event⟩ : Key) ∈ records ∧ (⟨c, .projection, event⟩ : Key) ∈ records) := by
  simp only [cost, ok_iff, not_or] at h
  obtain ⟨_, ⟨hne, _⟩, e, hfold, _, _, _, hflags, hres⟩ := h
  cases hres
  have hc := cites_of_foldlM records hfold
  obtain ⟨k, ks, rfl⟩ := List.exists_cons_of_ne_nil hne
  refine ⟨?_, hc.known, by rw [hc.spent], ?_, hc.elsewhere, ?_⟩
  · simp only [List.foldlM_cons, ok_iff] at hfold
    obtain ⟨e₁, hadd, _⟩ := hfold
    exact (Evidence.add_eq_ok hadd).1
  · simpa using hc.paid
  · rintro rfl
    simp only [true_and, not_or, Bool.not_eq_false] at hflags
    exact ⟨(hc.hasEvent hflags.1).resolve_left (by simp), (hc.hasProjection hflags.2).resolve_left (by simp)⟩

/-- A text is queued once: the same ticket again changes nothing. -/
theorem queue_cases {sequence : UInt64} {id : Id} (h : queue w c sequence id body = .ok w') :
    c ≤ 1 ∧ body.length ≤ 4096 ∧ Utf8.valid body = true ∧
      ((w' = w ∧ ∃ x, w.root.records[(queueKey c sequence).place]? = some x ∧
          x.value = (queueTicket id body).encode) ∨
        (w.root.records[(queueKey c sequence).place]? = none ∧
          w' = w.stored (queueKey c sequence) (queueTicket id body).encode frameCredit)) := by
  simp only [queue, ok_iff, not_or, Bool.not_eq_false] at h
  obtain ⟨_, ⟨hlen, hutf⟩, k, hk, old, hget, h⟩ := h
  obtain ⟨hc, _, rfl⟩ := Key.ordinal_eq_ok.mp hk
  refine ⟨hc, Nat.not_lt.mp hlen, hutf, ?_⟩
  cases old with
  | some old =>
    obtain ⟨_, x, hx, _, rfl⟩ := Root.get_eq_some hget
    dsimp only at h
    split at h
    · next heq => exact .inl ⟨(pure_eq_ok.mp h).symm, x, hx, heq⟩
    · exact absurd h throw_ne_ok
  | none =>
    have hnone := (Root.get_eq_none hget).2
    obtain ⟨_, _, hputs⟩ := Work.puts_of_put h
    rcases hputs with ⟨x, hx, _⟩ | _ | ⟨x, hx, _⟩
    · cases hnone.symm.trans hx
    · exact .inr ⟨hnone, rfl⟩
    · cases hnone.symm.trans hx

theorem offer_inside {g g' : Grant} {i : Nat} (hg : g.Inside) (h : offer w c g i = .ok g') :
    g'.Inside ∧ g'.id = g.id ∧ g'.start = g.start ∧ g'.stop = g.stop := by
  simp only [offer, ok_iff] at h
  obtain ⟨k, _, o, _, h⟩ := h
  cases o with
  | some v =>
    obtain rfl := pure_eq_ok.mp h
    exact ⟨hg, rfl, rfl, rfl⟩
  | none =>
    simp only [Grant.bit, ok_iff, not_or] at h
    obtain ⟨b, ⟨_, ⟨hlo, hhi⟩, rfl⟩, rfl⟩ := h
    have hlo : g.start.toNat ≤ (UInt64.ofNat (g.start.toNat + i)).toNat := UInt64.not_lt.mp hlo
    have hhi : (UInt64.ofNat (g.start.toNat + i)).toNat < g.stop.toNat := UInt64.not_le.mp hhi
    refine ⟨fun j hj => ?_, rfl, rfl, rfl⟩
    rw [Grant.getLsbD_add, Bool.or_eq_true] at hj
    rcases hj with hj | hj
    · exact hg j hj
    · simp only [Bool.and_eq_true, decide_eq_true_eq] at hj
      change j < g.stop.toNat - g.start.toNat
      omega

theorem offers_inside (is : List Nat) {g g' : Grant} (hg : g.Inside) (h : is.foldlM (offer w c) g = .ok g') :
    g'.Inside ∧ g'.id = g.id ∧ g'.start = g.start ∧ g'.stop = g.stop := by
  induction is generalizing g with
  | nil =>
    obtain rfl := pure_eq_ok.mp h
    exact ⟨hg, rfl, rfl, rfl⟩
  | cons i is ih =>
    simp only [List.foldlM_cons, ok_iff] at h
    obtain ⟨g₁, hoffer, h⟩ := h
    obtain ⟨hg₁, hid, hstart, hstop⟩ := offer_inside hg hoffer
    obtain ⟨hg', hid', hstart', hstop'⟩ := ih hg₁ h
    exact ⟨hg', hid'.trans hid, hstart'.trans hstart, hstop'.trans hstop⟩

/-- A grant moves free credit into a window, bit by bit. -/
theorem grant_cases {id : Id} {start stop : UInt64} (h : grant w c id start stop = .ok w') :
    c ≤ 1 ∧ (w' = w ∨ ∃ g : Grant, (w.root.ledger.get c).grant = none ∧ g.Inside ∧ g.id = id ∧
      g.start = start ∧ g.stop = stop ∧
      g.count * frameCredit ≤ (w.root.ledger.get c).repairFree ∧
      w' = setLedger w c { w.root.ledger.get c with
        repairFree := (w.root.ledger.get c).repairFree - g.count * frameCredit
        grant := some g }) := by
  simp only [grant, ok_iff, not_or] at h
  obtain ⟨_, ⟨hc, _⟩, h⟩ := h
  refine ⟨UInt8.not_lt.mp hc, ?_⟩
  split at h
  · split at h
    · exact .inl (pure_eq_ok.mp h).symm
    · exact absurd h throw_ne_ok
  · next hnone =>
    simp only [ok_iff, subOr_eq_ok] at h
    obtain ⟨g, hfold, _, ⟨hle, rfl⟩, rfl⟩ := h
    obtain ⟨hg, hid, hstart, hstop⟩ := offers_inside _ (by simp [Grant.Inside]) hfold
    exact .inr ⟨g, hnone, hg, hid, hstart, hstop, hle, rfl⟩

theorem cancelGrant_cases {id : Id} (h : cancelGrant w c id = .ok w') :
    c ≤ 1 ∧ ∃ g, (w.root.ledger.get c).grant = some g ∧ w' = setLedger w c { w.root.ledger.get c with
        repairFree := (w.root.ledger.get c).repairFree + g.count * frameCredit
        grant := none } := by
  simp only [cancelGrant, ok_iff, addOr_eq_ok] at h
  obtain ⟨_, hc, g, hg, _, _, _, ⟨_, rfl⟩, rfl⟩ := h
  exact ⟨UInt8.not_lt.mp hc, g, hg, rfl⟩

theorem refill_cases {bytes : Nat} (h : refill w c bytes = .ok w') :
    c ≤ 1 ∧ w' = setLedger w c { w.root.ledger.get c with
      repairFree := (w.root.ledger.get c).repairFree + bytes } := by
  simp only [refill, ok_iff, addOr_eq_ok] at h
  obtain ⟨_, hc, _, ⟨_, rfl⟩, rfl⟩ := h
  exact ⟨UInt8.not_lt.mp hc, rfl⟩

theorem enter_eq_ok {head : Bool} (h : enter l ordinal head = .ok l') :
    (head = true ∧ l.head = none ∧ l' = { l with head := some ordinal }) ∨
      (head = false ∧ l.pending + 1 ≤ 64 ∧ l' = { l with pending := l.pending + 1 }) := by
  cases head with
  | true =>
    simp only [enter, if_true, ok_iff, not_not] at h
    obtain ⟨_, hhead, rfl⟩ := h
    exact .inl ⟨rfl, hhead, rfl⟩
  | false =>
    simp only [enter, Bool.false_eq_true, if_false, ok_iff, addOr_eq_ok, Nat.not_lt] at h
    obtain ⟨_, ⟨_, rfl⟩, _, hle, rfl⟩ := h
    exact .inr ⟨rfl, hle, rfl⟩

theorem draw_eq_ok {grant : Option Id} (h : draw l ordinal grant = .ok l') :
    (grant = none ∧ l' = l) ∨ (∃ id g b, grant = some id ∧ l.grant = some g ∧ g.available.getLsbD b = true ∧
      l' = { l with grant := some (g.take b), outstanding := l.outstanding + frameCredit }) := by
  cases grant with
  | none => exact .inl ⟨rfl, (pure_eq_ok.mp h).symm⟩
  | some id =>
    simp only [draw, ok_iff, addOr_eq_ok, Bool.not_eq_false] at h
    obtain ⟨g, hg, _, _, b, _, _, hbit, _, ⟨_, rfl⟩, rfl⟩ := h
    exact .inr ⟨id, g, b, rfl, hg, hbit, rfl⟩

/-- A frame is entered once: the same frame again changes nothing. -/
theorem pending_cases {head : Bool}
    {grant : Option Id} (h : pending w c ordinal event body head grant = .ok w') :
    c ≤ 1 ∧ body.length ≤ 16 * 1024 ∧ (head = true → grant ≠ none) ∧
      ((w' = w ∧ ∃ x t, w.root.records[(pendingKey c ordinal).place]? = some x ∧
          Ticket.decode x.value = .ok t ∧ t.stage = 2 ∧ t.id = event ∧ t.body = body) ∨
        (∃ l l' reserved, w.root.records[(pendingKey c ordinal).place]? = none ∧
          enter (w.root.ledger.get c) ordinal head = .ok l ∧ draw l ordinal grant = .ok l' ∧
          charge (pendingTicket event body head grant).encode + reserved = frameCredit + tempCredit ∧
          w' = (setLedger w c l').stored (pendingKey c ordinal)
            (pendingTicket event body head grant).encode reserved)) := by
  simp only [pending, ok_iff, not_or] at h
  obtain ⟨_, ⟨hc, hlen, hhead⟩, k, hk, old, hget, h⟩ := h
  obtain ⟨_, _, rfl⟩ := Key.ordinal_eq_ok.mp hk
  refine ⟨UInt8.not_lt.mp hc, Nat.not_lt.mp hlen, fun hh hg => hhead ⟨hh, hg⟩, ?_⟩
  cases old with
  | some old =>
    obtain ⟨_, x, hx, _, rfl⟩ := Root.get_eq_some hget
    simp only [ok_iff] at h
    obtain ⟨t, hdecode, h⟩ := h
    split at h
    · next heq => exact .inl ⟨(pure_eq_ok.mp h).symm, x, t, hx, hdecode, heq⟩
    · exact absurd h throw_ne_ok
  | none =>
    have hnone := (Root.get_eq_none hget).2
    simp only [ok_iff, subOr_eq_ok] at h
    obtain ⟨l, hl, l', hl', reserved, ⟨hle, hreserved⟩, h⟩ := h
    obtain ⟨_, _, hputs⟩ := Work.puts_of_put h
    refine .inr ⟨l, l', reserved, hnone, hl, hl', by omega, ?_⟩
    rcases hputs with ⟨x, hx, _⟩ | _ | ⟨x, hx, _⟩
    · cases hnone.symm.trans hx
    · rfl
    · cases hnone.symm.trans hx

/-- Paying for a snapshot changes what has been spent and nothing else. -/
theorem payAuth_eq_ok {paid n : Nat} {id : Id} (h : payAuth w c paid id = .ok (n, w')) :
    (∃ x, w.root.records[(⟨c, .auth, id⟩ : Key).place]? = some x) ∧
      w' = { w with spent := insert ⟨c, .auth, id⟩ w.spent } ∧
      n + unspent w.newCharge w'.spent c = paid + unspent w.newCharge w.spent c ∧
      ∀ d, d ≠ c → unspent w.newCharge w'.spent d = unspent w.newCharge w.spent d := by
  simp only [payAuth, ok_iff, addOr_eq_ok] at h
  obtain ⟨k, hk, found, hget, _, hfound, _, ⟨_, rfl⟩, hres⟩ := h
  cases hres
  obtain ⟨_, _, rfl⟩ := Key.hash_eq_ok.mp hk
  obtain ⟨v, rfl⟩ := Option.ne_none_iff_exists'.mp hfound
  obtain ⟨_, x, hx, _, _⟩ := Root.get_eq_some hget
  refine ⟨⟨x, hx⟩, rfl, ?_, fun d hd => unspent_insert_of_ne _ _ (Ne.symm hd)⟩
  have := unspent_insert (w := w) (c := c) (k := ⟨c, .auth, id⟩) w.spent rfl rfl
  dsimp only
  omega

/-- What a first capture does: it pays for two snapshots and rewrites the ticket of the frame with
their names, out of the credit the ticket reserved. -/
structure Captures (w : Work) (c : UInt8) (ordinal : UInt64) (t : Ticket) (captures : Id × Id)
    (x : Record) (w' : Work) : Prop where
  auth : ∀ id ∈ [captures.1, captures.2], ∃ y, w.root.records[(⟨c, .auth, id⟩ : Key).place]? = some y
  step : ∃ paid reserved spent, let raw := { t with captures := some captures, admissionPaid := paid }.encode
    spent = insert ⟨c, .auth, captures.2⟩ (insert ⟨c, .auth, captures.1⟩ w.spent) ∧
    charge raw + paid ≤ tempCredit ∧
    reserved + paid + (charge raw - charge t.encode) = x.reserved ∧
    paid + unspent w.newCharge spent c = unspent w.newCharge w.spent c ∧
    (∀ d, d ≠ c → unspent w.newCharge spent d = unspent w.newCharge w.spent d) ∧
    { w with spent, settled := w.settled.set c true }.Puts (pendingKey c ordinal) raw reserved true w'

theorem capturePending_cases {original admission : Id}
    (h : capturePending w c ordinal event original admission = .ok w') :
    c ≤ 1 ∧ ∃ x t, w.root.records[(pendingKey c ordinal).place]? = some x ∧
      Ticket.decode x.value = .ok t ∧ t.stage = 2 ∧ t.id = event ∧
      ((w' = w ∧ t.captures = some (original, admission)) ∨
        (t.captures = none ∧ Captures w c ordinal t (original, admission) x w')) := by
  simp only [capturePending, ok_iff] at h
  obtain ⟨k, hk, t, ht, h⟩ := h
  obtain ⟨hc, _, rfl⟩ := Key.ordinal_eq_ok.mp hk
  obtain ⟨_, ⟨x, hx, hdecode⟩, hstage, hid⟩ := ticket_eq_ok ht
  refine ⟨hc, x, t, hx, hdecode, hstage, hid, ?_⟩
  split at h
  · next old hold =>
    split at h
    · next heq => exact .inl ⟨(pure_eq_ok.mp h).symm, heq ▸ hold⟩
    · exact absurd h throw_ne_ok
  · next hnone =>
    simp only [ok_iff, addOr_eq_ok, subOr_eq_ok, not_or, Prod.exists] at h
    obtain ⟨p₁, w₁, h₁, p₂, w₂, h₂, _, ⟨_, hfull⟩, leaf, hleaf, consumed, ⟨_, hconsumed⟩,
      reserved, ⟨hle, hreserved⟩, hput⟩ := h
    obtain ⟨hx₁, rfl, hpaid₁, helse₁⟩ := payAuth_eq_ok h₁
    obtain ⟨hx₂, rfl, hpaid₂, helse₂⟩ := payAuth_eq_ok h₂
    obtain rfl : x = leaf := Option.some.inj (hx.symm.trans hleaf)
    refine .inr ⟨hnone, ⟨?_, p₂, reserved, _, rfl, by omega, by omega, ?_, ?_, (Work.puts_of_put hput).2.2⟩⟩
    · intro id hmem
      rcases List.mem_pair.mp hmem with rfl | rfl
      · exact hx₁
      · exact hx₂
    · dsimp only at hpaid₁ hpaid₂ ⊢
      omega
    · exact fun d hd => (helse₂ d hd).trans (helse₁ d hd)

theorem place_ne {j : Key} (hj : j.context ≤ 1) (hns : j.ns.global = false) (h : j ≠ k) :
    k.place ≠ j.place := fun heq => h (Key.eq_of_place_eq hj hns heq.symm)

/-- A queued text becomes an undelivered event, whose ticket keeps what is left of the frame. -/
theorem materialize_cases {queue : UInt64} {request : Id} (h : materialize w c queue request ordinal event records = .ok w') :
    c ≤ 1 ∧ ∃ x t p xp n w₁ reserved, w.root.records[(queueKey c queue).place]? = some x ∧
      Ticket.decode x.value = .ok t ∧ t.stage = 1 ∧ t.id = request ∧
      w.root.records[(⟨c, .projection, event⟩ : Key).place]? = some xp ∧
      ProjectionValue.decode xp.value = .ok p ∧ p.text.bytes = t.body ∧
      cost w c event records false = .ok (n, w₁) ∧
      n + charge (undeliveredTicket event records).encode + reserved = frameCredit ∧
      minDebt ≤ reserved ∧ w.root.records[(undeliveredKey c ordinal).place]? = none ∧
      w' = (w₁.stored (undeliveredKey c ordinal) (undeliveredTicket event records).encode
        reserved).removed (queueKey c queue) x := by
  simp only [materialize, ok_iff, subOr_eq_ok, not_not, Nat.not_lt, Prod.exists] at h
  obtain ⟨old, hold, t, ht, kp, hkp, found, hfound, bytes, rfl, p, hp, _, htext, n, w₁, hcost, rest,
    ⟨hle, hrest⟩, reserved, ⟨hle', hreserved⟩, _, hmin, next, hnext, o, hget, _, hfree, w₂, hput,
    hremove⟩ := h
  obtain ⟨hc, _, rfl⟩ := Key.ordinal_eq_ok.mp hold
  obtain ⟨_, _, rfl⟩ := Key.ordinal_eq_ok.mp hnext
  obtain ⟨_, _, rfl⟩ := Key.hash_eq_ok.mp hkp
  obtain ⟨_, ⟨x, hx, hdecode⟩, hstage, hid⟩ := ticket_eq_ok ht
  obtain ⟨_, xp, hxp, _, rfl⟩ := Root.get_eq_some hfound
  obtain ⟨_, _, rfl, _, _, _⟩ := cost_eq_ok hcost
  subst hfree
  have hnone := (Root.get_eq_none hget).2
  obtain ⟨_, _, hputs⟩ := Work.puts_of_put hput
  obtain ⟨_, y, hy, rfl⟩ := Work.remove_eq_ok hremove
  rcases hputs with ⟨z, hz, _⟩ | _ | ⟨z, hz, _⟩
  · cases hnone.symm.trans hz
  · have hother : (queueKey c queue).place ≠ (undeliveredKey c ordinal).place := place_ne hc rfl (by simp)
    have hxy : x = y := by
      have hstored := Maps.get_insert_of_ne w.root.records (a := (undeliveredKey c ordinal).place)
        ⟨(undeliveredTicket event records).encode, reserved, c⟩ hother
      exact Option.some.inj (hx.symm.trans (hstored.symm.trans hy))
    subst hxy
    exact ⟨hc, x, t, p, xp, n, _, reserved, hx, hdecode, hstage, hid, hxp, hp, htext, hcost,
      by omega, hmin, hnone, rfl⟩
  · cases hnone.symm.trans hz

/-- Keeping the captures of a frame stores its admission record, or finds it stored. -/
theorem admit_eq_ok {captures : Option (Id × Id)} {records' : List Key}
    (h : admitCapture w c event captures records = .ok (w', records')) :
    (captures = none ∧ w' = w ∧ records' = records) ∨ (∃ pair, captures = some pair ∧
        w.Puts ⟨c, .admission, event⟩ (admissionValue pair) 0 false w' ∧
        records' = if (⟨c, .admission, event⟩ : Key) ∈ records then records
          else records ++ [⟨c, .admission, event⟩]) := by
  cases captures with
  | none =>
    cases pure_eq_ok.mp h
    exact .inl ⟨rfl, rfl, rfl⟩
  | some pair =>
    simp only [admitCapture, ok_iff] at h
    obtain ⟨k, hk, w₁, hput, hres⟩ := h
    cases hres
    obtain ⟨_, _, rfl⟩ := Key.hash_eq_ok.mp hk
    exact .inr ⟨pair, rfl, (Work.puts_of_put hput).2.2, rfl⟩

theorem leave_eq_ok {head : Bool} (h : leave l ordinal head = .ok l') :
    (head = true ∧ l.head = some ordinal ∧ l' = { l with head := none }) ∨
      (head = false ∧ 1 ≤ l.pending ∧ l' = { l with pending := l.pending - 1 }) := by
  cases head with
  | true =>
    simp only [leave, if_true, ok_iff, not_not] at h
    obtain ⟨_, hhead, rfl⟩ := h
    exact .inl ⟨rfl, hhead, rfl⟩
  | false =>
    simp only [leave, Bool.false_eq_true, if_false, ok_iff, subOr_eq_ok] at h
    obtain ⟨_, ⟨hone, rfl⟩, rfl⟩ := h
    exact .inr ⟨rfl, hone, rfl⟩

theorem giveBack_eq_ok {repair : Bool} {spent : Nat}
    (h : giveBack l repair spent = .ok l') : (repair = true ∧ frameCredit ≤ l.outstanding ∧
        l' = { l with outstanding := l.outstanding - frameCredit
                      repairFree := l.repairFree + (frameCredit - spent) }) ∨
      (repair = false ∧ l' = l) := by
  cases repair with
  | true =>
    simp only [giveBack, if_true, ok_iff, subOr_eq_ok, addOr_eq_ok] at h
    obtain ⟨outstanding, ⟨hle, hout⟩, free, ⟨_, hfree⟩, rfl⟩ := h
    rw [hout, hfree]
    exact .inl ⟨rfl, hle, rfl⟩
  | false => exact .inr ⟨rfl, (pure_eq_ok.mp h).symm⟩

/-- A pending frame becomes readable: its captures are kept, its records paid and its ticket gone. -/
theorem readable_cases (h : readable w c ordinal event records = .ok w') :
    c ≤ 1 ∧ ∃ x t xe w₁ records' n w₂ l l', w.root.records[(pendingKey c ordinal).place]? = some x ∧
      Ticket.decode x.value = .ok t ∧ t.stage = 2 ∧ t.id = event ∧
      w.root.records[(⟨c, .event, event⟩ : Key).place]? = some xe ∧ xe.value = t.body ∧
      admitCapture w c event t.captures records = .ok (w₁, records') ∧
      cost w₁ c event records' false = .ok (n, w₂) ∧ n + t.admissionPaid ≤ frameCredit ∧
      leave (w.root.ledger.get c) ordinal t.head = .ok l ∧
      giveBack l t.repair (n + t.admissionPaid) = .ok l' ∧
      w' = (setLedger w₂ c l').removed (pendingKey c ordinal) x := by
  simp only [readable, ok_iff, not_not, addOr_eq_ok, Nat.not_lt, Prod.exists] at h
  obtain ⟨old, hold, t, ht, _, _, ke, hke, found, hfound, _, hbody, w₁, records', hadmit, n, w₂,
    hcost, spent, ⟨_, hspent⟩, _, hle, l, hleave, l', hback, hremove⟩ := h
  obtain ⟨hc, _, rfl⟩ := Key.ordinal_eq_ok.mp hold
  obtain ⟨_, _, rfl⟩ := Key.hash_eq_ok.mp hke
  obtain ⟨_, ⟨x, hx, hdecode⟩, hstage, hid⟩ := ticket_eq_ok ht
  subst hbody
  obtain ⟨_, xe, hxe, _, hvalue⟩ := Root.get_eq_some hfound
  obtain ⟨_, _, hw₂, _, _, _⟩ := cost_eq_ok hcost
  obtain ⟨_, y, hy, rfl⟩ := Work.remove_eq_ok hremove
  have hroot : w₂.root.ledger = w.root.ledger ∧
      w₂.root.records[(pendingKey c ordinal).place]? = w.root.records[(pendingKey c ordinal).place]? := by
    have hw₁ : w₂.root = w₁.root := by rw [hw₂]
    rw [hw₁]
    rcases admit_eq_ok hadmit with ⟨_, rfl, _⟩ | ⟨pair, _, hputs, _⟩
    · exact ⟨rfl, rfl⟩
    · have hother : (pendingKey c ordinal).place ≠ (⟨c, .admission, event⟩ : Key).place := place_ne hc rfl (by simp)
      cases hputs with
      | same => exact ⟨rfl, rfl⟩
      | fresh | replaced => exact ⟨rfl, Maps.get_insert_of_ne _ _ hother⟩
  have hxy : x = y := Option.some.inj (hx.symm.trans (hroot.2.symm.trans hy))
  subst hxy
  rw [hroot.1] at hleave
  rw [hspent] at hback
  exact ⟨hc, x, t, xe, w₁, records', n, w₂, l, l', hx, hdecode, hstage, hid, hxe, hvalue, hadmit,
    hcost, hspent ▸ hle, hleave, hback, rfl⟩

/-- An undelivered event is acknowledged: its ticket is gone and its receipt paid from it. -/
theorem acknowledge_cases (h : acknowledge w c ordinal event records = .ok w') :
    c ≤ 1 ∧ ∃ x t n w₁, w.root.records[(undeliveredKey c ordinal).place]? = some x ∧
      Ticket.decode x.value = .ok t ∧ t.stage = 3 ∧ t.id = event ∧
      cost w c event records true = .ok (n, w₁) ∧ n ≤ x.reserved ∧
      w' = w₁.removed (undeliveredKey c ordinal) x := by
  simp only [acknowledge, ok_iff, Nat.not_lt, Prod.exists] at h
  obtain ⟨old, hold, t, ht, _, _, n, w₁, hcost, leaf, hleaf, _, hle, hremove⟩ := h
  obtain ⟨hc, _, rfl⟩ := Key.ordinal_eq_ok.mp hold
  obtain ⟨_, ⟨x, hx, hdecode⟩, hstage, hid⟩ := ticket_eq_ok ht
  obtain ⟨_, _, rfl, _, _, _⟩ := cost_eq_ok hcost
  obtain ⟨_, y, hy, rfl⟩ := Work.remove_eq_ok hremove
  obtain rfl : x = leaf := Option.some.inj (hx.symm.trans hleaf)
  obtain rfl : x = y := Option.some.inj (hx.symm.trans hy)
  exact ⟨hc, x, t, n, _, hx, hdecode, hstage, hid, hcost, hle, rfl⟩

end Kilogram.Credits
