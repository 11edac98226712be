import Kilogram.History.Validated

/-!
# What lowering builds

The parts of the lowering taken apart: the key of each record, the plan after each part of a row, after
a row, after a batch and after the links of protocol 2.
-/

namespace Kilogram.History
open Kilogram Wire
open Except (ok_iff pure_eq_ok throw_ne_ok foldlM_invariant)

def laneNs (role : UInt8) : Namespace := if role = 0 then .laneA else .laneB
def receiptNs (role : UInt8) : Namespace := if role = 0 then .receiptA else .receiptB

theorem byRole_eq_ok {role : UInt8} {a b ns : Namespace} {e : Error} :
    byRole role a b e = .ok ns ↔ role ≤ 1 ∧ ns = if role = 0 then a else b := by
  unfold byRole
  by_cases h0 : role = 0
  · subst h0
    simp [eq_comm]
  · by_cases h1 : role = 1
    · subst h1
      simp [eq_comm]
    · have hle : ¬ role ≤ 1 := fun h => (Two.eq_zero_or_one h).elim h0 h1
      simp [h0, h1, hle]

theorem lane_eq_ok {c role : UInt8} {n : UInt64} {k : Key} :
    lane c role n = .ok k ↔ c ≤ 1 ∧ role ≤ 1 ∧ k = ⟨c, laneNs role, ordinalBytes n⟩ := by
  have hnum : (laneNs role).numeric = true := by
    unfold laneNs
    split <;> rfl
  simp only [lane, ok_iff, byRole_eq_ok, Key.ordinal_eq_ok]
  constructor
  · rintro ⟨_, ⟨hrole, rfl⟩, hc, _, rfl⟩
    exact ⟨hc, hrole, rfl⟩
  · rintro ⟨hc, hrole, rfl⟩
    exact ⟨_, ⟨hrole, rfl⟩, hc, hnum, rfl⟩

theorem receipt_eq_ok {c role : UInt8} {n : UInt64} {k : Key} :
    receipt c role n = .ok k ↔ c ≤ 1 ∧ role ≤ 1 ∧ k = ⟨c, receiptNs role, ordinalBytes n⟩ := by
  have hnum : (receiptNs role).numeric = true := by
    unfold receiptNs
    split <;> rfl
  simp only [receipt, ok_iff, byRole_eq_ok, Key.ordinal_eq_ok]
  constructor
  · rintro ⟨_, ⟨hrole, rfl⟩, hc, _, rfl⟩
    exact ⟨hc, hrole, rfl⟩
  · rintro ⟨hc, hrole, rfl⟩
    exact ⟨_, ⟨hrole, rfl⟩, hc, hnum, rfl⟩

theorem hget_value (r : Root) (k : Result Key) : (hget r k).value = k >>= r.get := by
  simp [hget]

theorem hrequired_eq_ok {r : Root} {k : Result Key} {raw : Bytes}
    (h : (hrequired r k).value = .ok raw) : ∃ j, k = .ok j ∧ r.get j = .ok (some raw) := by
  simp only [hrequired, Counted.value_bind, hget_value, Counted.value_okOr, ok_iff] at h
  obtain ⟨_, ⟨j, hj, hget⟩, rfl⟩ := h
  exact ⟨j, hj, hget⟩

section
variable [Primitives] {r : Root} {c : UInt8} {p q : Plan}

/-- A local text: the first request of the queue from `start` on. -/
structure LocalOrigin (r : Root) (c : UInt8) (view : Id) (b : Binding) (text : Text) (id : Id)
    (start : UInt64) (p : Plan) (src : Source) (request : RequestRecord) : Prop where
  found : (historyRequestRecord r c b.request view).value = .ok (some (request, text))
  unsent : request.event = none
  first : (range r (c.toNat * 24 + Namespace.queue.code) (ordinalBytes start) 1).head? =
    some (ordinalBytes request.queue)
  next : src.queueStart.toNat = request.queue.toNat + 1
  origin : src.origin = .localText request.queue (requestHandle b.request)
  records : src.records = [⟨c, .request, requestHandle b.request⟩]
  grows : p.Grows (· = ⟨c, .request, requestHandle b.request⟩) src.plan
  put : src.plan.puts[(⟨c, .request, requestHandle b.request⟩ : Key)]? = some { request with event := some id }.encode

variable {b : Binding} {id : Id} {src : Source} {identity : Identity} {genesis : Bool}
  {row : PreparedReadable} {st : Batch} {heads : Heads} {native : NativeTransition}
  {fresh : FreshFields}

theorem localOrigin_eq_ok {view : Id} {text : Text} {start : UInt64} (h : localOrigin r c view b text id start p = .ok src) :
    ∃ request, LocalOrigin r c view b text id start p src request := by
  simp only [localOrigin, ok_iff, not_or, not_not] at h
  obtain ⟨_, hfound, ⟨request, stored⟩, rfl, _, ⟨hunsent, rfl⟩, first, hfirst, s, hs, wanted,
    hwanted, _, hmin, next, hnext, rk, hrk, p', hput, rfl⟩ := h
  obtain ⟨hc, _, rfl⟩ := Key.ordinal_eq_ok.mp hfirst
  obtain ⟨_, _, rfl⟩ := Key.ordinal_eq_ok.mp hwanted
  obtain ⟨_, _, rfl⟩ := Key.hash_eq_ok.mp hrk
  obtain ⟨rfl, _⟩ := Key.slot_eq_ok hs
  obtain ⟨hgrow, hputs⟩ := Plan.put_eq_ok hput
  exact ⟨request, hfound, hunsent, hmin, checkedAdd_eq_some.mp hnext, rfl, rfl, hgrow, hputs⟩

/-- A text of the peer: the pending frame of its ordinal. -/
structure PeerOrigin (r : Root) (c : UInt8) (b : Binding) (source : Bytes) (id : Id)
    (start : UInt64) (p : Plan) (src : Source) (raw : Bytes) (v : PendingView) : Prop where
  found : r.get ⟨c, .pending, ordinalBytes b.ordinal⟩ = .ok (some raw)
  view : pendingView raw = .ok v
  event : v.event = id
  body : v.body = source
  next : src.queueStart = start
  origin : src.origin = .peer
  records : src.records = [⟨c, receiptNs b.role, ordinalBytes b.ordinal⟩]
  grows : p.Grows (· = ⟨c, receiptNs b.role, ordinalBytes b.ordinal⟩) src.plan
  put : src.plan.puts[(⟨c, receiptNs b.role, ordinalBytes b.ordinal⟩ : Key)]? = some id.bytes

omit [Primitives] in
theorem peerOrigin_eq_ok {source : Bytes} {start : UInt64} (h : peerOrigin r c b source id start p = .ok src) :
    ∃ raw v, PeerOrigin r c b source id start p src raw v := by
  simp only [peerOrigin, ok_iff, not_or, not_not] at h
  obtain ⟨raw, hraw, v, hv, _, ⟨hevent, hbody⟩, k, hk, p', hput, rfl⟩ := h
  obtain ⟨j, hj, hget⟩ := hrequired_eq_ok hraw
  obtain ⟨_, _, rfl⟩ := Key.ordinal_eq_ok.mp hj
  obtain ⟨_, _, rfl⟩ := receipt_eq_ok.mp hk
  obtain ⟨hgrow, hputs⟩ := Plan.put_eq_ok hput
  exact ⟨raw, v, hget, hv, hevent, hbody, rfl, rfl, rfl, hgrow, hputs⟩

/-- The three origins of a row. -/
inductive RowOrigin (r : Root) (c : UInt8) (identity : Identity) (genesis : Bool) (b : Binding)
    (row : PreparedReadable) (id : Id) (st : Batch) (src : Source) : Prop
  | genesis (hg : genesis = true) (hsrc : src = ⟨st.plan, .genesis, [], st.queueStart⟩)
  | localText (request : RequestRecord) (hg : genesis = false)
      (hrole : b.role = identity.init.ownRole)
      (h : LocalOrigin r c st.heads.view b row.text id st.queueStart st.plan src request)
  | peer (raw : Bytes) (v : PendingView) (hg : genesis = false)
      (hrole : b.role ≠ identity.init.ownRole)
      (h : PeerOrigin r c b row.source id st.queueStart st.plan src raw v)

theorem rowOrigin_eq_ok (h : rowOrigin r c identity genesis b row id st = .ok src) :
    RowOrigin r c identity genesis b row id st src := by
  cases genesis with
  | true => exact .genesis rfl (pure_eq_ok.mp h).symm
  | false =>
    simp only [rowOrigin, Bool.false_eq_true, if_false] at h
    by_cases hrole : b.role = identity.init.ownRole
    · rw [if_pos hrole] at h
      obtain ⟨request, hlocal⟩ := localOrigin_eq_ok h
      exact .localText request rfl hrole hlocal
    · rw [if_neg hrole] at h
      obtain ⟨raw, v, hpeer⟩ := peerOrigin_eq_ok h
      exact .peer raw v rfl hrole hpeer

/-- The records an origin puts: a request or a receipt. -/
def OriginKey (k : Key) : Prop := k.ns = .request ∨ k.ns = .receiptA ∨ k.ns = .receiptB

omit [Primitives] in
theorem originKey_receipt (role : UInt8) (bytes : Id) : OriginKey ⟨c, receiptNs role, bytes⟩ := by
  unfold OriginKey receiptNs
  split <;> simp

theorem RowOrigin.grows (h : RowOrigin r c identity genesis b row id st src) : st.plan.Grows OriginKey src.plan := by
  cases h with
  | genesis _ hsrc => exact hsrc ▸ .refl _
  | localText request _ _ h =>
    exact h.grows.mono (by rintro _ rfl; exact .inl rfl)
  | peer raw v _ _ h =>
    exact h.grows.mono (by rintro _ rfl; exact originKey_receipt b.role _)

/-- The further records of a row: authority, seen keys and author slots. -/
def ExtraKey (k : Key) : Prop := k.ns = .auth ∨ k.ns = .seenA ∨ k.ns = .seenB ∨ k.ns.author = true

omit [Primitives] in
theorem putSeen_eq_ok {role : UInt8} {seen : Option Seen} {ks : List Key} (h : putSeen p role id seen = .ok (q, ks)) :
    p.Grows ExtraKey q ∧ ∀ k ∈ ks, k.context = p.context ∧ ExtraKey k ∧ q.puts[k]? ≠ none := by
  cases seen with
  | none =>
    simp only [putSeen, ok_iff, Prod.mk.injEq] at h
    obtain ⟨rfl, rfl⟩ := h
    exact ⟨.refl p, by simp⟩
  | some seen =>
    simp only [putSeen, ok_iff, Prod.mk.injEq] at h
    obtain ⟨k, hk, q', hput, rfl, rfl⟩ := h
    obtain ⟨_, _, rfl⟩ := Key.hash_eq_ok.mp hk
    have hkey : ExtraKey ⟨p.context, if role = 0 then .seenA else .seenB, seen.key⟩ := by
      unfold ExtraKey
      split <;> simp
    obtain ⟨hgrow, hputs⟩ := Plan.put_eq_ok hput
    refine ⟨hgrow.mono (by rintro _ rfl; exact hkey), ?_⟩
    intro k hk
    obtain rfl := List.mem_singleton.mp hk
    exact ⟨rfl, hkey, by simp [hputs]⟩

omit [Primitives] in
theorem author_of_authorSlot {slot : UInt8} {ns : Namespace} (h : authorSlot slot = some ns) : ns.author = true := by
  unfold authorSlot at h
  split at h <;> first | exact Option.some.inj h ▸ rfl | exact absurd h (by simp)

omit [Primitives] in
theorem putAuthor_eq_ok {context : Id} {sequence : UInt64} {slot : Option UInt8}
    {ks : List Key} (h : putAuthor p context id sequence slot = .ok (q, ks)) :
    p.Grows ExtraKey q ∧ ∀ k ∈ ks, k.context = p.context ∧ ExtraKey k ∧ q.puts[k]? ≠ none := by
  cases slot with
  | none =>
    simp only [putAuthor, ok_iff, Prod.mk.injEq] at h
    obtain ⟨rfl, rfl⟩ := h
    exact ⟨.refl p, by simp⟩
  | some slot =>
    simp only [putAuthor, ok_iff, Prod.mk.injEq] at h
    obtain ⟨ns, hns, k, hk, q', hput, rfl, rfl⟩ := h
    obtain ⟨_, _, rfl⟩ := Key.ordinal_eq_ok.mp hk
    have hkey : ExtraKey ⟨p.context, ns, ordinalBytes sequence⟩ := .inr (.inr (.inr (author_of_authorSlot hns)))
    obtain ⟨hgrow, hputs⟩ := Plan.put_eq_ok hput
    refine ⟨hgrow.mono (by rintro _ rfl; exact hkey), ?_⟩
    intro k hk
    obtain rfl := List.mem_singleton.mp hk
    exact ⟨rfl, hkey, by simp [hputs]⟩

/-- What a row puts beside its origin. -/
def RowKey (c : UInt8) (id : Id) (b : Binding) (k : Key) : Prop :=
  k = ⟨c, .event, id⟩ ∨ k = ⟨c, .projection, id⟩ ∨ k = ⟨c, laneNs b.role, ordinalBytes b.ordinal⟩ ∨ ExtraKey k

structure RowPuts (c : UInt8) (row : PreparedReadable) (b : Binding) (id : Id) (src : Source)
    (p : Plan) (records : List Key) : Prop where
  context : c ≤ 1
  role : b.role ≤ 1
  grows : src.plan.Grows (RowKey c id b) p
  event : p.puts[(⟨c, .event, id⟩ : Key)]? = some row.source
  projection : ∃ raw value, b.encode = .ok raw ∧ (ProjectionValue.mk row.text raw).encode = .ok value ∧
    p.puts[(⟨c, .projection, id⟩ : Key)]? = some value
  lane : p.puts[(⟨c, laneNs b.role, ordinalBytes b.ordinal⟩ : Key)]? = some id.bytes
  records : ∃ hk extra, headsKey c = .ok hk ∧ records = canonicalKeys ([⟨c, .event, id⟩, ⟨c, .projection, id⟩,
      ⟨c, laneNs b.role, ordinalBytes b.ordinal⟩, hk, ⟨c, .native, 0⟩] ++ src.records ++ extra) ∧
    ∀ k ∈ extra, k.context = src.plan.context ∧ ExtraKey k ∧ p.puts[k]? ≠ none

theorem putRow_eq_ok {records : List Key} (h : putRow c identity row b id src = .ok (p, records)) :
    RowPuts c row b id src p records := by
  simp only [putRow, ok_iff, Prod.exists, Prod.mk.injEq] at h
  obtain ⟨ek, hek, pk, hpk, lk, hlk, hk, hhk, nk, hnk, p₁, h₁, raw, hraw, value, hvalue, p₂, h₂, p₃,
    h₃, p₄, auths, h₄, p₅, seen, h₅, p₆, author, h₆, rfl, rfl⟩ := h
  obtain ⟨hc, _, rfl⟩ := Key.hash_eq_ok.mp hek
  obtain ⟨_, _, rfl⟩ := Key.hash_eq_ok.mp hpk
  obtain ⟨_, hrole, rfl⟩ := lane_eq_ok.mp hlk
  obtain ⟨_, _, rfl⟩ := Key.hash_eq_ok.mp hnk
  obtain ⟨g₁, hevent⟩ := Plan.put_eq_ok h₁
  obtain ⟨g₂, hprojection⟩ := Plan.put_eq_ok h₂
  obtain ⟨g₃, hlane⟩ := Plan.put_eq_ok h₃
  obtain ⟨g₄, rfl, hauths⟩ := Plan.addAuths_eq_ok h₄
  obtain ⟨g₅, hseen⟩ := putSeen_eq_ok h₅
  obtain ⟨g₆, hauthor⟩ := putAuthor_eq_ok h₆
  have hextra : ∀ k : Key, ExtraKey k → RowKey c id b k := fun k h => .inr (.inr (.inr h))
  -- the extras after the lane, and the whole chain
  have g₄₆ : p₃.Grows ExtraKey p₆ := (g₄.mono fun _ h => .inl h).trans (g₅.trans g₆)
  have g₃₆ := g₄₆.mono hextra
  have g₀₃ : src.plan.Grows (RowKey c id b) p₃ :=
    ((g₁.mono fun _ h => .inl h).trans (g₂.mono fun _ h => .inr (.inl h))).trans
      (g₃.mono fun _ h => .inr (.inr (.inl h)))
  have hctx : p₃.context = src.plan.context := g₀₃.context
  refine ⟨hc, hrole, g₀₃.trans g₃₆, ?_, ⟨raw, value, hraw, hvalue, ?_⟩, g₃₆.puts _ _ hlane,
    hk, row.extras.auth.map (fun a => ⟨p₃.context, .auth, a.id⟩) ++ (seen ++ author), hhk, ?_, ?_⟩
  · exact g₃₆.puts _ _ (g₃.puts _ _ (g₂.puts _ _ hevent))
  · exact g₃₆.puts _ _ (g₃.puts _ _ hprojection)
  · simp only [List.append_assoc]
  · intro k hkmem
    rcases List.mem_append.mp hkmem with h | h
    · obtain ⟨a, ha, rfl⟩ := List.mem_map.mp h
      exact ⟨hctx, .inl rfl, by simp [g₆.puts _ _ (g₅.puts _ _ (hauths a ha))]⟩
    · rcases List.mem_append.mp h with h | h
      · obtain ⟨hcx, hx, hput⟩ := hseen k h
        obtain ⟨v, hv⟩ := Option.ne_none_iff_exists'.mp hput
        exact ⟨by rw [hcx, g₄.context, hctx], hx, by simp [g₆.puts _ _ hv]⟩
      · obtain ⟨hcx, hx, hput⟩ := hauthor k h
        exact ⟨by rw [hcx, g₅.context, g₄.context, hctx], hx, hput⟩

/-- One row of a batch: what was checked, and the batch after it. -/
structure RowStep (r : Root) (c : UInt8) (identity : Identity) (genesis : Bool) (st : Batch)
    (row : PreparedReadable) (id : Id) (b : Binding) (src : Source) (p : Plan) (records : List Key)
    (heads : Heads) (st' : Batch) : Prop where
  scope : row.scope = identity.init.scope
  event : row.eventId = .ok id
  binding : rowBinding st.heads.view row = .ok b
  fits : checkRowHeads genesis st.heads b row.text = .ok ()
  parents : ∀ parent ∈ b.parents, checkRowParent r c id st.heads st.staged parent = .ok ()
  origin : RowOrigin r c identity genesis b row id st src
  puts : RowPuts c row b id src p records
  advance : advance genesis st.heads b.role id = .ok heads
  batch : st' = {
    plan := { p with
      credits := p.credits ++ rowCredit c src.origin b.ordinal id records
      rows := p.rows ++ [⟨id, b.role, b.ordinal, src.origin, records⟩] }
    heads
    staged := st.staged.insert id b
    frameIds := st.frameIds ++ [id]
    queueStart := src.queueStart }

theorem rowStep_eq_ok {st' : Batch} (h : rowStep r c identity genesis st row = .ok st') :
    ∃ id b src p records heads, RowStep r c identity genesis st row id b src p records heads st' := by
  simp only [rowStep, ok_iff, Except.forM_eq_ok, not_not, Prod.exists] at h
  obtain ⟨_, hscope, id, hid, b, hb, _, hheads, _, hparents, src, hsrc, p, records, hput, heads, hadv, rfl⟩ := h
  exact ⟨id, b, src, p, records, heads, hscope, hid, hb, hheads, hparents, rowOrigin_eq_ok hsrc,
    putRow_eq_ok hput, hadv, rfl⟩

theorem RowStep.frame {st' : Batch} {records : List Key} (h : RowStep r c identity genesis st row id b src p records heads st') :
    st'.plan.context = st.plan.context ∧ st'.plan.purpose = st.plan.purpose ∧
      st'.plan.protocol2 = st.plan.protocol2 := by
  have hshape := h.puts.grows.shape
  rw [h.origin.grows.shape] at hshape
  rw [h.batch, hshape]
  exact ⟨rfl, rfl, rfl⟩

/-- The plan of a batch: its rows, then the native record and the heads. -/
structure Rows (r : Root) (c : UInt8) (identity : Identity) (heads : Heads)
    (rows : List PreparedReadable) (native : NativeTransition) (genesis : Bool) (st : Batch)
    (old : Option Bytes) (p : Plan) : Prop where
  fold : rows.foldlM (rowStep r c identity genesis)
    ⟨Plan.new c (if genesis then .genesis else .text), heads, ∅, [], 0⟩ = .ok st
  frames : st.frameIds = native.frameIds
  stored : r.get ⟨c, .native, 0⟩ = .ok old
  before : old.map Primitives.hash = native.beforeHash
  opening : old = none → genesis = true ∧ ∃ row, st.plan.rows.head? = some row ∧ row.role = 0
  grows : st.plan.Grows (fun k => k = ⟨c, .native, 0⟩ ∨ headsKey c = .ok k) p
  native : p.puts[(⟨c, .native, 0⟩ : Key)]? = some native.afterBlob
  heads : ∃ hk, headsKey c = .ok hk ∧ p.puts[hk]? = some st.heads.encode

theorem historyRows_eq_ok {rows : List PreparedReadable}
    (h : historyRows r c identity heads rows native genesis = .ok p) :
    ∃ st old, Rows r c identity heads rows native genesis st old p := by
  simp only [historyRows, ok_iff, not_not, hget_value] at h
  obtain ⟨st, hfold, _, hframes, k, hk, old, ⟨j, hj, hold⟩, _, hbefore, _, hopen, p', hput, hheads⟩ := h
  obtain ⟨_, _, rfl⟩ := Key.hash_eq_ok.mp hk
  cases hj
  obtain ⟨g₁, hnative⟩ := Plan.put_eq_ok hput
  obtain ⟨hk, hhk, g₂, hput₂⟩ := Plan.putAt_eq_ok hheads
  refine ⟨st, old, hfold, hframes, hold, hbefore, ?_, ?_, g₂.puts _ _ hnative, hk, hhk, hput₂⟩
  · intro hnone
    simp only [not_and, not_or, Bool.not_eq_false] at hopen
    obtain ⟨hg, hrow⟩ := hopen hnone
    refine ⟨hg, ?_⟩
    cases hhead : st.plan.rows.head? with
    | none => simp [hhead] at hrow
    | some row => exact ⟨row, rfl, by simpa [hhead] using hrow⟩
  · exact (g₁.mono fun _ h => .inl h).trans (g₂.mono fun _ h => .inr (h ▸ hhk))

theorem Rows.frame {rows : List PreparedReadable} {old : Option Bytes}
    (h : Rows r c identity heads rows native genesis st old p) :
    p.context = c ∧ p.purpose = (if genesis then .genesis else .text) ∧ p.protocol2 = false := by
  have hst : st.plan.context = c ∧ st.plan.purpose = (if genesis then .genesis else .text) ∧
      st.plan.protocol2 = false := by
    refine foldlM_invariant (fun st : Batch => st.plan.context = c ∧
      st.plan.purpose = (if genesis then Purpose.genesis else .text) ∧ st.plan.protocol2 = false)
      ?_ h.fold ⟨rfl, rfl, rfl⟩
    intro b row b' _ hstep hb
    obtain ⟨_, _, _, _, _, _, hrow⟩ := rowStep_eq_ok hstep
    obtain ⟨h₁, h₂, h₃⟩ := hrow.frame
    exact ⟨h₁.trans hb.1, h₂.trans hb.2.1, h₃.trans hb.2.2⟩
  rw [h.grows.shape]
  exact hst

/-- The first plan of a context: its identity and its empty heads. -/
structure InitPlan (c : UInt8) (i : Identity) (v : Id) (bytes : Bytes) (ik hk : Key) (p : Plan) : Prop where
  view : i.viewId = .ok v
  raw : i.encode = .ok bytes
  identityKey : identityKey c = .ok ik
  headsKey : headsKey c = .ok hk
  grows : (Plan.new c .init).Grows (fun k => k = ik ∨ k = hk) p
  identity : p.puts[ik]? = some bytes
  heads : p.puts[hk]? = some (Heads.mk v ⟨1, 1⟩ ⟨none, none⟩).encode

theorem initPlan_eq_ok (h : initPlan c identity = .ok p) :
    ∃ view raw ik hk, InitPlan c identity view raw ik hk p := by
  simp only [initPlan, ok_iff] at h
  obtain ⟨view, hview, raw, hraw, p₁, h₁, h₂⟩ := h
  obtain ⟨ik, hik, g₁, hput₁⟩ := Plan.putAt_eq_ok h₁
  obtain ⟨hk, hhk, g₂, hput₂⟩ := Plan.putAt_eq_ok h₂
  exact ⟨view, raw, ik, hk, hview, hraw, hik, hhk,
    (g₁.mono fun _ h => .inl h).trans (g₂.mono fun _ h => .inr h), g₂.puts _ _ hput₁, hput₂⟩

/-- A first history: the view was absent and nothing of the context is stored. -/
theorem lowerInit_eq_ok {init : Init} (h : lowerInit r c init = .ok (some p)) :
    init.scope.context = r.contexts.get c ∧ (historyView r c).value = .error .historyUnavailable ∧
      historyFresh r c = .ok () ∧ initPlan c ⟨r.incarnation, init⟩ = .ok p := by
  simp only [lowerInit, ok_iff, not_not] at h
  obtain ⟨_, hscope, h⟩ := h
  split at h
  · simp only [ok_iff, reduceCtorEq, and_false, exists_false] at h
  · next hview =>
    simp only [ok_iff, Option.some.injEq] at h
    obtain ⟨_, hfresh, q, hq, rfl⟩ := h
    exact ⟨hscope, hview, hfresh, hq⟩
  · exact absurd h throw_ne_ok

/-- The plan that accepts a new request: its record and a queue ticket under the generation. -/
structure QueuePlan (r : Root) (c : UInt8) (heads : Heads) (request : RequestId) (text : Text)
    (q p : Plan) : Prop where
  absent : (historyRequestRecord r c request heads.view).value = .ok none
  free : r.get ⟨c, .queue, ordinalBytes r.generation⟩ = .ok none
  grows : (Plan.new c .queue).Grows (· = ⟨c, .request, requestHandle request⟩) q
  put : q.puts[(⟨c, .request, requestHandle request⟩ : Key)]? =
    some (RequestRecord.mk r.generation request (bodyHash text.bytes) none).encode
  plan : p = q.addCredit (.queue c r.generation (requestHandle request) text.bytes)

theorem lowerQueue_eq_ok {request : RequestId} {text : Text} (h : lowerQueue r c heads request text = .ok (some p)) :
    ∃ q, QueuePlan r c heads request text q p := by
  simp only [lowerQueue, ok_iff] at h
  obtain ⟨found, hfound, h⟩ := h
  cases found with
  | some pair =>
    simp only [ok_iff, reduceCtorEq, and_false, exists_false] at h
  | none =>
    simp only [hget_value, ok_iff, not_not, Option.some.injEq] at h
    obtain ⟨taken, ⟨k, hk, htaken⟩, _, rfl, q, hput, rfl⟩ := h
    obtain ⟨_, _, rfl⟩ := Key.ordinal_eq_ok.mp hk
    obtain ⟨j, hj, g, hputs⟩ := Plan.putAt_eq_ok hput
    obtain ⟨_, _, rfl⟩ := Key.hash_eq_ok.mp hj
    exact ⟨q, hfound, htaken, g, hputs, rfl⟩

/-- A plan for a pending frame: authority records, the frame and at most its captures. -/
def PendingShape (c : UInt8) (ordinal : UInt64) (event : Id) (body : Bytes) (head : Bool) (grant : Option Id)
    (p : Plan) : Prop :=
  ∃ q : Plan, (Plan.new c .pending).Grows (·.ns = .auth) { q with credits := [] } ∧
    (p = { q with credits := [.pending c ordinal event body head grant] } ∨
      ∃ original admission, p = { q with credits := [.pending c ordinal event body head grant,
        .capturePending c ordinal event original admission] })

omit [Primitives] in
theorem pendingPlan_eq_ok {frame : Pending} (h : pendingPlan c frame id = .ok p) :
    PendingShape c frame.ordinal id frame.source frame.head frame.grant p := by
  simp only [pendingPlan] at h
  split at h
  · exact ⟨Plan.new c .pending, .refl _, .inl (pure_eq_ok.mp h).symm⟩
  · next capture hcapture =>
    obtain ⟨s, g, rfl⟩ := Plan.addCapture_eq_ok h
    refine ⟨s, ?_, .inr ⟨capture.original.id, capture.admission.id, ?_⟩⟩
    · exact ⟨by rw [g.shape]; rfl, g.puts, g.only⟩
    · rw [Plan.addCredit, g.credits]
      rfl

theorem lowerPending_eq_ok {frame : Pending} (h : lowerPending r c identity heads frame = .ok (some p)) :
    ∃ id, sourceId frame.format frame.source = .ok id ∧
      heads.frontiers.get (1 - identity.init.ownRole) ≤ frame.ordinal ∧
      PendingShape c frame.ordinal id frame.source frame.head frame.grant p := by
  simp only [lowerPending, ok_iff] at h
  obtain ⟨_, _, id, hid, h⟩ := h
  by_cases hlt : frame.ordinal < heads.frontiers.get (1 - identity.init.ownRole)
  · rw [if_pos hlt] at h
    simp only [ok_iff, reduceCtorEq, and_false, exists_false] at h
  · rw [if_neg hlt] at h
    simp only [ok_iff, Option.some.injEq] at h
    obtain ⟨_, _, q, hq, rfl⟩ := h
    exact ⟨id, hid, UInt64.not_lt.mp hlt, pendingPlan_eq_ok hq⟩

omit [Primitives] in
theorem lowerCapture_eq_ok {ordinal : UInt64} {event : Id}
    {capture : Capture} (h : lowerCapture r c identity heads ordinal event capture = .ok (some p)) :
    ∃ s, (Plan.new c .capture).Grows (·.ns = .auth) s ∧
      p = s.addCredit (.capturePending c ordinal event capture.original.id capture.admission.id) := by
  simp only [lowerCapture, ok_iff, Option.some.injEq] at h
  obtain ⟨_, _, _, _, _, _, q, hq, rfl⟩ := h
  exact Plan.addCapture_eq_ok hq

omit [Primitives] in
theorem lowerRepair_eq_ok {repair : Repair} (h : lowerRepair c identity heads repair = .ok (some p)) :
    ∃ a, p = (Plan.new c .repair).addCredit a := by
  cases repair with
  | grant id start stop =>
    simp only [lowerRepair, ok_iff, Option.some.injEq] at h
    obtain ⟨_, _, rfl⟩ := h
    exact ⟨_, rfl⟩
  | cancelGrant id | refill bytes => exact ⟨_, (Option.some.inj (pure_eq_ok.mp h)).symm⟩

/-- A plan that settles the delivery of an own event: its receipt, and authority or links. -/
structure AckPlan (r : Root) (c own : UInt8) (ordinal : UInt64) (event : Id) (p : Plan) : Prop where
  context : p.context = c
  purpose : p.purpose = .ack
  rows : p.rows = []
  owed : ∃ debt body, r.get ⟨c, .undelivered, ordinalBytes ordinal⟩ = .ok (some debt) ∧
    historyTicket debt 3 = .ok (event, body)
  receipt : p.puts[(⟨c, receiptNs own, ordinalBytes ordinal⟩ : Key)]? = some event.bytes
  only : ∀ k : Key, k ≠ ⟨c, receiptNs own, ordinalBytes ordinal⟩ → k.ns ≠ .auth → k.ns ≠ .control → p.puts[k]? = none
  credit : ∃ records, p.credits = [.acknowledge c ordinal event records]

omit [Primitives] in
theorem new_puts (c : UInt8) (purpose : Purpose) (k : Key) : (Plan.new c purpose).puts[k]? = none := by
  simp [Plan.new]

theorem lowerAcknowledge_eq_ok {ordinal : UInt64} {event : Id} {auth : List Auth}
    (h : lowerAcknowledge r c identity heads ordinal event auth = .ok (some p)) :
    (∃ candidate, (historyCandidate r c identity.init.ownRole ordinal heads.view
      heads.frontiers).value = .ok candidate ∧ candidate.row.id = event) ∧ ordinal ≠ 0 ∧
      AckPlan r c identity.init.ownRole ordinal event p := by
  simp only [lowerAcknowledge, ok_iff, not_or, not_not, hget_value] at h
  obtain ⟨candidate, hcand, _, ⟨hzero, hid⟩, rk, hrk, found, ⟨k, hk, hfound⟩, h⟩ := h
  obtain ⟨_, _, rfl⟩ := receipt_eq_ok.mp hrk
  obtain ⟨_, _, rfl⟩ := Key.ordinal_eq_ok.mp hk
  refine ⟨⟨candidate, hcand, hid⟩, hzero, ?_⟩
  cases found with
  | none =>
    simp only [ok_iff, reduceCtorEq, and_false, exists_false] at h
  | some debt =>
    simp only [ok_iff, not_not, Prod.exists, Option.some.injEq] at h
    obtain ⟨id, body, hticket, _, rfl, p₁, h₁, p₂, auths, h₂, rfl⟩ := h
    obtain ⟨g₁, hput⟩ := Plan.put_eq_ok h₁
    obtain ⟨g₂, _, _⟩ := Plan.addAuths_eq_ok h₂
    refine ⟨by rw [Plan.addCredit, g₂.context, g₁.context]; rfl, by rw [Plan.addCredit, g₂.purpose, g₁.purpose]; rfl,
      by rw [Plan.addCredit, g₂.rows, g₁.rows]; rfl, ⟨debt, body, hfound, hticket⟩,
      g₂.puts _ _ hput, ?_, _, by rw [Plan.addCredit, g₂.credits, g₁.credits]; rfl⟩
    intro k hne hauth _
    exact (g₂.only k hauth).trans ((g₁.only k hne).trans (new_puts c .ack k))

theorem addLink_frame {l : Link} (h : addLink c identity p l = .ok q) :
    q.context = p.context ∧ q.purpose = p.purpose := by
  simp only [addLink, ok_iff] at h
  obtain ⟨view, _, fk, _, p₁, h₁, h⟩ := h
  have g₁ := (Plan.put_eq_ok h₁).1
  cases hr : l.receipt with
  | none =>
    rw [hr] at h
    obtain rfl := pure_eq_ok.mp h
    exact ⟨g₁.context, g₁.purpose⟩
  | some raw =>
    rw [hr] at h
    simp only [ok_iff] at h
    obtain ⟨rk, _, p₂, h₂, rfl⟩ := h
    have g₂ := (Plan.put_eq_ok h₂).1
    exact ⟨g₂.context.trans g₁.context, g₂.purpose.trans g₁.purpose⟩

/-- The plan of a batch of protocol 2: that of its prepared rows, and its links. -/
structure Rows2 (r : Root) (c : UInt8) (identity : Identity) (heads : Heads) (b : StoredBinding)
    (fresh : FreshFields) (rows : List Readable2) (native : NativeTransition) (genesis : Bool)
    (last : Two (Option EventFields)) (st : Derived) (q p : Plan) : Prop where
  last0 : lastEvent r c heads 0 = .ok last.zero
  last1 : lastEvent r c heads 1 = .ok last.one
  fold : rows.foldlM (protoRow r c heads b fresh genesis) ⟨[], [], ∅, ∅, [], last⟩ = .ok st
  plain : historyRows r c identity heads st.prepared native genesis = .ok q
  links : st.links.foldlM (addLink c identity) { q with protocol2 := true } = .ok p

theorem protoRows_eq_ok {b : StoredBinding} {rows : List Readable2}
    (h : protoRows r c identity heads b fresh rows native genesis = .ok p) :
    ∃ last st q, Rows2 r c identity heads b fresh rows native genesis last st q p := by
  simp only [protoRows, ok_iff] at h
  obtain ⟨last0, h0, last1, h1, st, hfold, q, hq, hlinks⟩ := h
  exact ⟨⟨last0, last1⟩, st, q, h0, h1, hfold, hq, hlinks⟩

theorem Rows2.frame {b : StoredBinding} {rows : List Readable2}
    {last : Two (Option EventFields)} {st : Derived}
    (h : Rows2 r c identity heads b fresh rows native genesis last st q p) :
    p.context = c ∧ p.purpose = if genesis then .genesis else .text := by
  obtain ⟨batch, old, hrows⟩ := historyRows_eq_ok h.plain
  obtain ⟨hctx, hpurpose, _⟩ := hrows.frame
  refine foldlM_invariant (fun p : Plan => p.context = c ∧
    p.purpose = if genesis then .genesis else .text) ?_ h.links ⟨hctx, hpurpose⟩
  intro p₁ l p₂ _ hl hp
  obtain ⟨h₁, h₂⟩ := addLink_frame hl
  exact ⟨h₁.trans hp.1, h₂.trans hp.2⟩

theorem lowerInit2_eq_ok {init : Init} {binding : Protocol2Binding} (h : lowerInit2 r c init binding = .ok (some p)) :
    ∃ raw q bk, (StoredBinding.new init binding).encode = .ok raw ∧
      (protoBinding r c).value = .ok none ∧ historyFresh r c = .ok () ∧
      init.scope.context = r.contexts.get c ∧ initPlan c ⟨r.incarnation, init⟩ = .ok q ∧
      bindingKey c = .ok bk ∧ { q with protocol2 := true }.Grows (· = bk) p ∧
      p.puts[bk]? = some raw := by
  simp only [lowerInit2, ok_iff] at h
  obtain ⟨raw, hraw, found, hfound, h⟩ := h
  cases found with
  | some pair =>
    simp only [ok_iff, reduceCtorEq, and_false, exists_false] at h
  | none =>
    simp only [ok_iff, not_not, Option.some.injEq] at h
    obtain ⟨_, hfresh, _, hctx, q, hq, p', hput, rfl⟩ := h
    obtain ⟨bk, hbk, hgrow, hputs⟩ := Plan.putAt_eq_ok hput
    exact ⟨raw, q, bk, hraw, hfound, hfresh, hctx, hq, hbk, hgrow, hputs⟩

theorem lowerPending2_eq_ok {b : StoredBinding}
    {source : Bytes} {head : Bool} {grant : Option Id} {admissionRef : Id} {auth : List Auth}
    (h : lowerPending2 r c heads b fresh source head grant admissionRef auth = .ok (some p)) :
    ∃ e, readEvent2 source = .ok e ∧ checkScope e b fresh = .ok () ∧ e.kind = 3 ∧ e.role ≠ b.role ∧
      pendingKnown r c heads e source admissionRef = .ok false ∧
      PendingShape c e.n e.id source head grant { p with protocol2 := false } := by
  simp only [lowerPending2, ok_iff, not_or, not_not] at h
  obtain ⟨e, he, _, hscope, _, ⟨hkind, hrole⟩, map, _, _, _, original, _, admission, _, known, hknown, h⟩ := h
  cases known with
  | true => simp at h
  | false =>
    simp only [Bool.false_eq_true, if_false, ok_iff, Prod.exists, Option.some.injEq] at h
    obtain ⟨_, _, p₁, k₁, h₁, p₂, k₂, h₂, rfl⟩ := h
    refine ⟨e, he, hscope, hkind, hrole, hknown, ?_⟩
    have g := (Plan.addAuth_eq_ok h₁).1.trans (Plan.addAuth_eq_ok h₂).1
    refine ⟨{ p₂ with protocol2 := false }, ⟨?_, g.puts, g.only⟩, .inr ⟨e.author, admissionRef, ?_⟩⟩
    · rw [g.shape]
      rfl
    · simp only [Plan.addCredit, g.credits]
      rfl

theorem lowerAcknowledge2_eq_ok {b : StoredBinding} {format : UInt8} {raw : Bytes} {auth : List Auth}
    (h : lowerAcknowledge2 r c heads b fresh format raw auth = .ok (some p)) :
    ∃ f e, readReceipt2 raw = .ok f ∧
      (∃ candidate source, (historyCandidate r c b.role f.n heads.view heads.frontiers).value =
        .ok candidate ∧ r.get ⟨c, .event, candidate.row.id⟩ = .ok (some source) ∧
        readEvent2 source = .ok e) ∧ AckPlan r c b.role f.n e.id p := by
  simp only [lowerAcknowledge2, ok_iff, not_not, hget_value] at h
  obtain ⟨_, _, f, hf, map, _, _, _, _, hrole, candidate, hcand, source, hsource, e, he, receiver,
    _, wk, hwk, found, ⟨_, hj, hfound⟩, h⟩ := h
  obtain ⟨k, hk, hget⟩ := hrequired_eq_ok hsource
  obtain ⟨_, _, rfl⟩ := Key.hash_eq_ok.mp hk
  obtain ⟨_, _, rfl⟩ := Key.hash_eq_ok.mp hwk
  refine ⟨f, e, hf, ⟨candidate, source, hcand, hget, he⟩, ?_⟩
  cases found with
  | some old =>
    simp only [ok_iff, reduceCtorEq, and_false, exists_false] at h
  | none =>
    simp only [ok_iff, not_not, Prod.exists, Option.some.injEq] at h
    obtain ⟨debt, hdebt, id, body, hticket, _, rfl, marker, hmarker, p₁, h₁, p₂, h₂, p₃, ak, h₃, rfl⟩ := h
    obtain ⟨k, hk, hget⟩ := hrequired_eq_ok hdebt
    obtain ⟨_, _, rfl⟩ := Key.ordinal_eq_ok.mp hk
    obtain ⟨_, _, rfl⟩ := receipt_eq_ok.mp hmarker
    obtain ⟨g₁, hput⟩ := Plan.put_eq_ok h₁
    have g₂ := (Plan.put_eq_ok h₂).1
    have g₃ := (Plan.addAuth_eq_ok h₃).1
    rw [hrole] at hput g₁
    refine ⟨by rw [Plan.addCredit, g₃.context, g₂.context, g₁.context]; rfl,
      by rw [Plan.addCredit, g₃.purpose, g₂.purpose, g₁.purpose]; rfl,
      by rw [Plan.addCredit, g₃.rows, g₂.rows, g₁.rows]; rfl, ⟨debt, body, hget, hticket⟩,
      g₃.puts _ _ (g₂.puts _ _ hput), ?_, _,
      by rw [Plan.addCredit, g₃.credits, g₂.credits, g₁.credits]; rfl⟩
    intro k hne hauth hcontrol
    refine (g₃.only k hauth).trans ((g₂.only k ?_).trans ((g₁.only k hne).trans (new_puts c .ack k)))
    rintro rfl
    exact hcontrol rfl

omit [Primitives] in
theorem PendingShape.frame {ordinal : UInt64} {event : Id} {body : Bytes} {head : Bool}
    {grant : Option Id} (h : PendingShape c ordinal event body head grant p) :
    p.context = c ∧ p.purpose = .pending ∧ p.rows = [] := by
  obtain ⟨q, g, rfl | ⟨_, _, rfl⟩⟩ := h
  · exact ⟨g.context, g.purpose, g.rows⟩
  · exact ⟨g.context, g.purpose, g.rows⟩

theorem lowerManaged_context {op : Operation}
    (h : lowerManaged r c identity heads op = .ok (some p)) : p.context = c := by
  cases op with
  | init i => exact absurd h throw_ne_ok
  | genesis row native | textBatch rows native =>
    simp only [lowerManaged, ok_iff, Option.some.injEq] at h
    obtain ⟨q, hq, rfl⟩ := h
    obtain ⟨_, _, hrows⟩ := historyRows_eq_ok hq
    exact hrows.frame.1
  | queueAccept request text =>
    obtain ⟨q, hqueue⟩ := lowerQueue_eq_ok h
    rw [hqueue.plan]
    exact hqueue.grows.context
  | acceptPending frame =>
    obtain ⟨_, _, _, hshape⟩ := lowerPending_eq_ok h
    exact hshape.frame.1
  | capturePending ordinal event capture =>
    obtain ⟨s, g, rfl⟩ := lowerCapture_eq_ok h
    exact g.context
  | repairCredit repair =>
    obtain ⟨a, rfl⟩ := lowerRepair_eq_ok h
    rfl
  | acknowledge ordinal event auth => exact (lowerAcknowledge_eq_ok h).2.2.context

theorem historyLower_context {op : Operation} (h : historyLower r c op = .ok (some p)) : p.context = c := by
  simp only [historyLower, ok_iff] at h
  obtain ⟨_, _, h⟩ := h
  split at h
  · obtain ⟨_, _, _, hplan⟩ := lowerInit_eq_ok h
    obtain ⟨_, _, _, _, hinit⟩ := initPlan_eq_ok hplan
    exact hinit.grows.context
  · simp only [ok_iff, Prod.exists, Option.map_eq_some_iff] at h
    obtain ⟨identity, heads, _, found, hfound, q, rfl, rfl⟩ := h
    have hcontext : q.context = c := lowerManaged_context hfound
    exact hcontext

theorem history2Lower_context {op : Operation2} (h : history2Lower r c op = .ok (some p)) : p.context = c := by
  cases op with
  | init i binding =>
    obtain ⟨_, q, _, _, _, _, _, hplan, _, hgrow, _⟩ := lowerInit2_eq_ok h
    obtain ⟨_, _, _, _, hinit⟩ := initPlan_eq_ok hplan
    exact hgrow.context.trans hinit.grows.context
  | genesis row native | textBatch rows native =>
    simp only [history2Lower, ok_iff, Option.some.injEq, Prod.exists] at h
    obtain ⟨b, fresh, _, identity, heads, _, q, hq, rfl⟩ := h
    obtain ⟨_, _, _, hrows⟩ := protoRows_eq_ok hq
    exact hrows.frame.1
  | acceptPending source head grant admission auth =>
    simp only [history2Lower, ok_iff, Prod.exists] at h
    obtain ⟨b, fresh, _, identity, heads, _, h⟩ := h
    obtain ⟨_, _, _, _, _, _, hshape⟩ := lowerPending2_eq_ok h
    exact hshape.frame.1
  | acknowledge format raw auth =>
    simp only [history2Lower, ok_iff, Prod.exists] at h
    obtain ⟨b, fresh, _, identity, heads, _, h⟩ := h
    obtain ⟨_, _, _, _, hack⟩ := lowerAcknowledge2_eq_ok h
    exact hack.context

end
end Kilogram.History
