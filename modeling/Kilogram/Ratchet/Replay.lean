import Kilogram.Ratchet.Dialog

/-!
# What a guard has accepted

The owner of a guard offers it events: its own ones, and whatever arrives from the other side.
-/

namespace Kilogram.Ordered2
open Kilogram
open Except (ok_iff failIf okOr_eq_ok bind_eq_error InPlace)

/-- The method as the source has it: it works on the guard in place. -/
def Guard2.applyInPlace (step : PreparedStep) (actual : EventMeta) (id : Id) (seen : SeenObservation) :
    ExceptT Error (StateM Guard2) Unit := do
  let s ← get
  let prepared := if step.receive then step.event else { step.event with key := actual.key }
  ofExcept (failIf (s ≠ step.before ∨ prepared ≠ actual) (.input "stale prepared step"))
  ofExcept (failIf (step.receive = false ∧ s.own.next ≠ 0 ∧ s.rotateDue = false ∧
    s.own.key ≠ some actual.key) (.input "own continuation key"))
  ofExcept (checkSeen (if step.receive then s.peer else s.own) actual.key actual.expected.g seen)
  ofExcept (s.trial step actual id).validate
  set (s.trial step actual id)

structure Accepted where
  receive : Bool
  event : EventMeta
  id : Id

/-- A guard, the index of the keys it has accepted and the accepted events, oldest first. -/
structure Owner where
  guard : Guard2
  seen : UInt8 → Id → Option Seen
  accepted : List Accepted

/-- An event on offer. The key of an own event is known only after the native trial. -/
inductive Offer where
  | send (prepared actual : EventMeta) (id : Id) (root native : UInt64)
  | receive (event : EventMeta) (id : Id) (root native : UInt64)

namespace Owner

def accept (o : Owner) (guard : Guard2) (a : Accepted) : Owner where
  guard := guard
  seen := note o.seen a.event.role a.event.key ⟨a.event.expected.g, a.id⟩
  accepted := o.accepted ++ [a]

def offer (o : Owner) : Offer → Result Owner
  | .send prepared actual id root native => do
    let step ← o.guard.preflightSend prepared root native
    let guard ← o.guard.apply step actual id (observe o.seen actual.role actual.key)
    return o.accept guard ⟨false, actual, id⟩
  | .receive event id root native => do
    let seen := observe o.seen event.role event.key
    let step ← o.guard.preflightReceive event seen root native
    let guard ← o.guard.apply step event id seen
    return o.accept guard ⟨true, event, id⟩

/-- What the owner keeps after a call on its guard: the guard as the call left it, and the event if
it was accepted. -/
def settle (o : Owner) (a : Accepted) : Result Unit × Guard2 → Owner
  | (.ok _, guard) => o.accept guard a
  | (.error _, guard) => { o with guard }

def next (o : Owner) : Offer → Owner
  | .send prepared actual id root native =>
    match o.guard.preflightSend prepared root native with
    | .error _ => o
    | .ok step => o.settle ⟨false, actual, id⟩ <|
        (Guard2.applyInPlace step actual id (observe o.seen actual.role actual.key)).run o.guard
  | .receive event id root native =>
    match o.guard.preflightReceive event (observe o.seen event.role event.key) root native with
    | .error _ => o
    | .ok step => o.settle ⟨true, event, id⟩ <|
        (Guard2.applyInPlace step event id (observe o.seen event.role event.key)).run o.guard

end Owner

def importStep (role : UInt8) (o : Owner) (m : EventMeta × Id) : Result Owner := do
  failIf (m.1.n ≥ 512 ∨ m.1.expected.g ≥ 512 ∨ m.1.index ≥ 512) (.checkpoint "L1 bounds")
  o.offer (if m.1.role = role then .send m.1 m.1 m.2 0 0 else .receive m.1 m.2 0 0)

/-- The guard of an older dialog, rebuilt from its events; `restored` is what the expected checkpoint
restores to. -/
def importL1 (role : UInt8) (steps : List (EventMeta × Id)) (restored : Result Guard2) : Result Owner := do
  failIf (steps.length > 1024) (.checkpoint "L1 source count")
  let guard ← Guard2.new role
  let o ← steps.foldlM (importStep role) ⟨guard, fun _ _ => none, []⟩
  let expected ← restored
  failIf (expected ≠ o.guard) (.checkpoint "L1 accepted checkpoint/source correspondence")
  return o

/-- The states of the owner of a guard. -/
inductive Owned (role : UInt8) : Owner → Prop
  | new {guard : Guard2} (h : Guard2.new role = .ok guard) : Owned role ⟨guard, fun _ _ => none, []⟩
  | imported {steps : List (EventMeta × Id)} {restored : Result Guard2} {o : Owner}
      (h : importL1 role steps restored = .ok o) : Owned role o
  | next {o : Owner} (h : Owned role o) (x : Offer) : Owned role (o.next x)

def lane (receive : Bool) (l : List Accepted) : List Accepted := l.filter (·.receive = receive)

/-- The events that open a chain: their key is not the one before. -/
def firsts : Option Id → List Accepted → List Id
  | _, [] => []
  | key, a :: l => (if key = some a.event.key then [] else [a.id]) ++ firsts (some a.event.key) l

def latestFirst (l : List Accepted) : Option Id := (firsts none l).getLast?

/-- The event takes the next place after the events `l`: it continues their last chain, or it opens
the next one with a fresh key, in answer to `cause`. -/
structure Follows (l : List Accepted) (cause : Option Id) (e : EventMeta) : Prop where
  ordinal : e.n.toNat = l.length
  previous : e.previous = l.getLast?.map Accepted.id
  sequence : ∀ a ∈ l, a.event.sequence < e.sequence
  chain : (∃ a, l.getLast? = some a ∧ e.key = a.event.key ∧
      e.expected.g = a.event.expected.g ∧ e.index.toNat = a.event.index.toNat + 1) ∨
    ((∀ a ∈ l, a.event.key ≠ e.key) ∧ e.index = 0 ∧ (l = [] → e.expected.g = 0) ∧
      ∀ a, l.getLast? = some a → e.expected.g.toNat = a.event.expected.g.toNat + 1 ∧
        ∃ f, cause = some f ∧ e.expected.parent = some f)

namespace Guard2
variable {s s' : Guard2} {e : EventMeta} {st : PreparedStep}

/-- The guard is replaced as the last act of the method. -/
theorem inPlace_apply (s : Guard2) (st : PreparedStep) (e : EventMeta) (id : Id) (seen : SeenObservation) :
    InPlace (applyInPlace st e id seen) (s.apply st e id seen) s :=
  InPlace.check (InPlace.check (InPlace.check (InPlace.check
    (InPlace.set _ _) _) _) _) _

theorem preflight_inv {receive : Bool} {seen : Option SeenObservation} {root native : UInt64}
    (h : s.preflight e receive seen root native = .ok st) :
    (st.before = s ∧ st.event = e ∧ st.receive = receive) ∧ st.next.toNat = e.n.toNat + 1 ∧
      e.role = (if receive then 1 - s.role else s.role) ∧
      e.n = (if receive then s.peer else s.own).next ∧
      e.previous = (if receive then s.peer else s.own).last ∧
      (∀ q, (if receive then s.peer else s.own).sequence = some q → q < e.sequence) ∧
      e.index = e.expected.index ∧ s.expectedFor receive e.key = .ok e.expected := by
  simp only [preflight, ok_iff, not_or, not_not] at h
  obtain ⟨_, _, _, _, next, hnext, _, _, _, _, _, ⟨hrole, hn, hprevious, hsequence, hindex, _⟩, x,
    hx, _, hexpected, _, _, _, _, rfl⟩ := h
  refine ⟨⟨rfl, rfl, rfl⟩, checkedAdd_eq_some.mp (okOr_eq_ok.mp hnext), hrole, hn, hprevious,
    ?_, hindex, hexpected ▸ hx⟩
  intro q hq
  rw [hq] at hsequence
  simpa using hsequence

theorem apply_inv {id : Id} {seen : SeenObservation} (h : s.apply st e id seen = .ok s') :
    s' = s.trial st e id ∧ (if st.receive then st.event else { st.event with key := e.key }) = e ∧
      checkSeen (if st.receive then s.peer else s.own) e.key e.expected.g seen = .ok () := by
  simp only [apply, ok_iff, not_or, not_not] at h
  obtain ⟨_, ⟨_, hevent⟩, _, _, _, hseen, _, _, rfl⟩ := h
  exact ⟨rfl, hevent, hseen⟩

/-- A received event touches its own lane only. -/
theorem trial_receive {id : Id} (h : st.receive = true) :
    (s.trial st e id).role = s.role ∧ (s.trial st e id).own = s.own ∧
      (s.trial st e id).peer = s.peer.record e id st.next := by
  rw [trial, if_pos h]
  split_ifs <;> exact ⟨rfl, rfl, rfl⟩

/-- A received event opens the lane, continues its chain, or opens the next chain in answer to the
first event of the own one. -/
theorem expectedReceive_inv {key : Id} {x : Expected} (h : s.expectedReceive key = .ok x) :
    (s.peer.next = 0 ∧ x.g = 0 ∧ x.index = 0) ∨
      (s.peer.key = some key ∧ x.g = s.peer.g ∧ x.index.toNat = s.peer.index.toNat + 1) ∨
      (s.peer.next ≠ 0 ∧ s.peer.key ≠ some key ∧ x.g.toNat = s.peer.g.toNat + 1 ∧ x.index = 0 ∧
        ∃ f, s.own.first = some f ∧ x.parent = some f) := by
  unfold expectedReceive at h
  split_ifs at h with hnext hkey
  · refine .inl ⟨hnext, ?_⟩
    unfold genesis at h
    split_ifs at h
    · cases h
      exact ⟨rfl, rfl⟩
    · simp only [ok_iff] at h
      obtain ⟨_, _, rfl⟩ := h
      exact ⟨rfl, rfl⟩
  · simp only [ok_iff, continuationIndex] at h
    obtain ⟨_, ⟨j, hj, _, _, rfl⟩, rfl⟩ := h
    exact .inr (.inl ⟨hkey, rfl, checkedAdd_eq_some.mp (okOr_eq_ok.mp hj)⟩)
  · simp only [ok_iff] at h
    obtain ⟨_, _, f, hf, _, _, g, hg, _, _, rfl⟩ := h
    exact .inr (.inr ⟨hnext, hkey, checkedAdd_eq_some.mp (okOr_eq_ok.mp hg), rfl, f, hf, rfl⟩)

end Guard2

variable {seen : SeenObservation} {l : List Accepted} {role : UInt8} {guard : Guard2}
  {st : PreparedStep} {e : EventMeta} {root native : UInt64} {x : Offer}

theorem checkSeen_fresh {l : Lane} {key : Id} {g : UInt64}
    (h : checkSeen l key g seen = .ok ()) (hkey : l.key ≠ some key) : seen = .absent := by
  cases seen with
  | absent => rfl
  | present x => simp [checkSeen, hkey] at h

theorem firsts_concat (key : Option Id) (l : List Accepted) (a : Accepted) : firsts key (l ++ [a]) = firsts key l ++
      if ((l.getLast?.map fun b => b.event.key).or key) = some a.event.key then [] else [a.id] := by
  induction l generalizing key with
  | nil => by_cases h : key = some a.event.key <;> simp [firsts, h]
  | cons b l ih =>
    rw [List.cons_append, firsts, firsts, ih, List.append_assoc]
    cases hl : l.getLast? with
    | none =>
      obtain rfl := List.getLast?_eq_none_iff.mp hl
      simp
    | some c => simp [List.getLast?_cons, hl]

theorem latestFirst_concat (l : List Accepted) (a : Accepted) : latestFirst (l ++ [a]) =
      if (l.getLast?.map fun b => b.event.key) = some a.event.key then latestFirst l
      else some a.id := by
  rw [latestFirst, firsts_concat, Option.or_none]
  split_ifs with h
  · rw [List.append_nil]
    rfl
  · rw [List.getLast?_append]
    rfl

/-- A lane of a guard says this much about the events of the lane. -/
structure Summary (l : List Accepted) (s : Lane) : Prop where
  next : s.next.toNat = l.length
  last : s.last = l.getLast?.map Accepted.id
  key : s.key = l.getLast?.map fun a => a.event.key
  sequence : ∀ a ∈ l, ∃ q, s.sequence = some q ∧ a.event.sequence ≤ q
  g : ∀ a, l.getLast? = some a → s.g = a.event.expected.g
  index : ∀ a, l.getLast? = some a → s.index = a.event.index
  first : s.first = latestFirst l

theorem summary_empty : Summary [] .empty := by
  constructor <;> simp [Lane.empty, latestFirst, firsts]

theorem Summary.record {s : Lane} (h : Summary l s) {a : Accepted} {next : UInt64}
    (hn : a.event.n = s.next) (hnext : next.toNat = a.event.n.toNat + 1)
    (hsequence : ∀ q, s.sequence = some q → q < a.event.sequence) :
    Summary (l ++ [a]) (s.record a.event a.id next) where
  next := by
    change next.toNat = _
    rw [hnext, hn, h.next, List.length_append, List.length_singleton]
  last := by simp [Lane.record]
  key := by simp [Lane.record]
  sequence := by
    intro b hb
    refine ⟨a.event.sequence, rfl, ?_⟩
    rcases List.mem_append.mp hb with hb | hb
    · obtain ⟨q, hq, hle⟩ := h.sequence b hb
      exact UInt64.le_trans hle (UInt64.le_of_lt (hsequence q hq))
    · rw [List.mem_singleton.mp hb]
      exact UInt64.le_refl _
  g := by simp [Lane.record]
  index := by simp [Lane.record]
  first := by
    rw [latestFirst_concat, ← h.key, ← h.first]
    change (if s.key ≠ some a.event.key then some a.id else s.first) = _
    split_ifs <;> simp_all

/-- The guard sums up the two lanes, the index knows the keys of the received events, and each of
these followed the ones before it. -/
structure Kept (r : UInt8) (o : Owner) : Prop where
  bound : r ≤ 1
  role : o.guard.role = r
  own : Summary (lane false o.accepted) o.guard.own
  peer : Summary (lane true o.accepted) o.guard.peer
  seen : ∀ a ∈ lane true o.accepted, o.seen (1 - r) a.event.key ≠ none
  follows : ∀ before a after, o.accepted = before ++ a :: after → a.receive = true →
    Follows (lane true before) (latestFirst (lane false before)) a.event

theorem Kept.start (h : Guard2.new role = .ok guard) : Kept role ⟨guard, fun _ _ => none, []⟩ := by
  simp only [Guard2.new, ok_iff] at h
  obtain ⟨_, hrole, rfl⟩ := h
  exact ⟨UInt8.not_lt.mp hrole, rfl, summary_empty, summary_empty, by simp [lane], by simp⟩

theorem lane_concat (receive : Bool) (l : List Accepted) (a : Accepted) :
    lane receive (l ++ [a]) = lane receive l ++ if a.receive = receive then [a] else [] := by
  unfold lane
  rw [List.filter_append]
  by_cases h : a.receive = receive <;> simp [h]

variable {r : UInt8} {o : Owner}

theorem note_ne_none {seen : UInt8 → Id → Option Seen} {k key : Id} {x : Seen}
    (h : seen r k ≠ none ∨ r = role ∧ k = key) : note seen role key x r k ≠ none := by
  unfold note
  split_ifs with hif
  · simp
  · rcases h with h | ⟨hr, hk⟩
    · exact h
    · exact fun hnone => hif ⟨hr, hk, hnone⟩

theorem observe_absent {k : Id} (h : observe o.seen r k = .absent) : o.seen r k = none := by
  unfold observe at h
  cases hs : o.seen r k with
  | none => rfl
  | some x => simp [hs] at h

/-- An event that was accepted last has followed the events before it; so did they. -/
theorem follows_concat {x : Accepted} (h : ∀ before a after, l = before ++ a :: after → a.receive = true →
      Follows (lane true before) (latestFirst (lane false before)) a.event)
    (hx : x.receive = true → Follows (lane true l) (latestFirst (lane false l)) x.event) :
    ∀ before a after, l ++ [x] = before ++ a :: after → a.receive = true →
      Follows (lane true before) (latestFirst (lane false before)) a.event := by
  intro before a after heq ha
  rcases List.eq_nil_or_concat' after with rfl | ⟨after, y, rfl⟩
  · obtain ⟨rfl, hxa⟩ := List.append_inj' heq rfl
    obtain rfl := (List.cons.inj hxa).1
    exact hx ha
  · rw [← List.cons_append, ← List.append_assoc] at heq
    exact h before a after (List.append_inj' heq rfl).1 ha

theorem Kept.send (h : Kept r o) {prepared : EventMeta} {id : Id}
    (hst : o.guard.preflightSend prepared root native = .ok st)
    (hguard : o.guard.apply st e id seen = .ok guard) : Kept r (o.accept guard ⟨false, e, id⟩) := by
  obtain ⟨⟨-, hevent, hreceive⟩, hnext, hrole, hn, hprevious, hsequence, -⟩ := Guard2.preflight_inv hst
  obtain ⟨rfl, hactual, -⟩ := Guard2.apply_inv hguard
  rw [hreceive, hevent] at hactual
  have hsame : e.n = prepared.n ∧ e.sequence = prepared.sequence := by
    rw [← hactual]
    exact ⟨rfl, rfl⟩
  have hown : Summary (lane false o.accepted ++ [⟨false, e, id⟩]) (o.guard.own.record e id st.next) :=
    h.own.record (hsame.1.trans hn) (by rw [hsame.1]; exact hnext)
      (fun q hq => hsame.2 ▸ hsequence q hq)
  have htrial : o.guard.trial st e id =
      { o.guard with own := o.guard.own.record e id st.next, rotateDue := false } := by
    rw [Guard2.trial, hreceive]
    rfl
  rw [htrial]
  refine ⟨h.bound, h.role, ?_, ?_, ?_, follows_concat h.follows fun ha => absurd ha Bool.false_ne_true⟩
  · rw [Owner.accept, lane_concat, if_pos rfl]
    exact hown
  · rw [Owner.accept, lane_concat, if_neg (by simp), List.append_nil]
    exact h.peer
  · intro a ha
    rw [Owner.accept, lane_concat, if_neg (by simp), List.append_nil] at ha
    exact note_ne_none (.inl (h.seen a ha))

theorem Kept.receive (h : Kept r o) {id : Id}
    (hst : o.guard.preflightReceive e (observe o.seen e.role e.key) root native = .ok st)
    (hguard : o.guard.apply st e id (observe o.seen e.role e.key) = .ok guard) :
    Kept r (o.accept guard ⟨true, e, id⟩) := by
  obtain ⟨⟨-, -, hreceive⟩, hnext, hrole, hn, hprevious, hsequence, hindex, hexpected⟩ := Guard2.preflight_inv hst
  obtain ⟨rfl, -, hseen⟩ := Guard2.apply_inv hguard
  simp only [hreceive, if_true] at hrole hn hprevious hsequence hseen
  rw [h.role] at hrole
  have hpeer : Summary (lane true o.accepted ++ [⟨true, e, id⟩])
      (o.guard.peer.record e id st.next) := h.peer.record hn hnext hsequence
  have hfresh : o.guard.peer.key ≠ some e.key → ∀ a ∈ lane true o.accepted, a.event.key ≠ e.key := by
    intro hkey a ha heq
    have hnone := observe_absent (checkSeen_fresh hseen hkey)
    rw [hrole, ← heq] at hnone
    exact h.seen a ha hnone
  have hlast {a : Accepted} (ha : (lane true o.accepted).getLast? = some a) :
      o.guard.peer.key = some a.event.key := by
    rw [h.peer.key, ha]
    rfl
  have hfollows : Follows (lane true o.accepted) (latestFirst (lane false o.accepted)) e := by
    refine ⟨by rw [hn, h.peer.next], hprevious.trans h.peer.last, ?_, ?_⟩
    · intro a ha
      obtain ⟨q, hq, hle⟩ := h.peer.sequence a ha
      exact UInt64.lt_of_le_of_lt hle (hsequence q hq)
    · rcases Guard2.expectedReceive_inv hexpected with ⟨hz, hg, hi⟩ | ⟨hkey, hg, hi⟩ |
        ⟨hz, hkey, hg, hi, f, hf, hparent⟩
      · have hnil : lane true o.accepted = [] := by
          apply List.length_eq_zero_iff.mp
          rw [← h.peer.next, hz]
          rfl
        refine .inr ⟨by simp [hnil], hindex.trans hi, fun _ => hg, by simp [hnil]⟩
      · obtain ⟨a, ha, hakey⟩ := Option.map_eq_some_iff.mp (h.peer.key.symm.trans hkey)
        refine .inl ⟨a, ha, hakey.symm, hg.trans (h.peer.g a ha), ?_⟩
        rw [hindex, hi, h.peer.index a ha]
      · have hne : lane true o.accepted ≠ [] := by
          intro hnil
          exact hz (UInt64.toNat_inj.mp (by rw [h.peer.next, hnil]; rfl))
        refine .inr ⟨hfresh hkey, hindex.trans hi, fun hnil => absurd hnil hne, fun a ha => ⟨?_, f, ?_, hparent⟩⟩
        · rw [hg, h.peer.g a ha]
        · rw [← h.own.first, hf]
  refine ⟨h.bound, ?_, ?_, ?_, ?_, follows_concat h.follows fun _ => hfollows⟩
  · exact (Guard2.trial_receive hreceive).1.trans h.role
  · rw [Owner.accept, lane_concat, if_neg (by simp), List.append_nil, (Guard2.trial_receive hreceive).2.1]
    exact h.own
  · rw [Owner.accept, lane_concat, if_pos rfl, (Guard2.trial_receive hreceive).2.2]
    exact hpeer
  · intro a ha
    rw [Owner.accept, lane_concat, if_pos rfl, List.mem_append, List.mem_singleton] at ha
    rcases ha with ha | rfl
    · exact note_ne_none (.inl (h.seen a ha))
    · exact note_ne_none (.inr ⟨hrole.symm, rfl⟩)

theorem Kept.offer {o' : Owner} (h : Kept r o) (hx : o.offer x = .ok o') : Kept r o' := by
  cases x with
  | send prepared actual id root native =>
    simp only [Owner.offer, ok_iff] at hx
    obtain ⟨st, hst, guard, hguard, rfl⟩ := hx
    exact h.send hst hguard
  | receive event id root native =>
    simp only [Owner.offer, ok_iff] at hx
    obtain ⟨st, hst, guard, hguard, rfl⟩ := hx
    exact h.receive hst hguard

theorem Owner.next_of_ok {o' : Owner} (h : o.offer x = .ok o') : o.next x = o' := by
  cases x with
  | send prepared actual id root native | receive event id root native =>
    simp only [Owner.offer, ok_iff] at h
    obtain ⟨st, hst, guard, hguard, rfl⟩ := h
    simp only [Owner.next, hst, (Guard2.inPlace_apply _ _ _ _ _).1 _ hguard]
    rfl

theorem Owner.next_of_error {error : Error} (h : o.offer x = .error error) : o.next x = o := by
  cases x with
  | send prepared actual id root native | receive event id root native =>
    rcases bind_eq_error.mp h with hst | ⟨st, hst, h⟩
    · simp only [Owner.next, hst]
    · rcases bind_eq_error.mp h with hguard | ⟨_, _, h⟩
      · simp only [Owner.next, hst, (Guard2.inPlace_apply _ _ _ _ _).2 _ hguard]
        rfl
      · cases h

theorem Kept.next (h : Kept r o) (x : Offer) : Kept r (o.next x) := by
  cases hx : o.offer x with
  | error _ =>
    rw [Owner.next_of_error hx]
    exact h
  | ok o' =>
    rw [Owner.next_of_ok hx]
    exact h.offer hx

theorem Kept.imported {steps : List (EventMeta × Id)} {restored : Result Guard2} (h : importL1 r steps restored = .ok o) : Kept r o := by
  simp only [importL1, ok_iff] at h
  obtain ⟨_, _, guard, hguard, o, hfold, _, _, _, _, rfl⟩ := h
  refine Except.foldlM_invariant (Kept r) ?_ hfold (.start hguard)
  intro o m o' _ hstep ho
  simp only [importStep, ok_iff] at hstep
  obtain ⟨_, _, hoffer⟩ := hstep
  exact ho.offer hoffer

theorem Owned.kept (h : Owned role o) : Kept role o := by
  induction h with
  | new h => exact .start h
  | imported h => exact .imported h
  | next _ x ih => exact ih.next x

/-- Whatever events a guard is offered, the received ones that it accepts form one chain, and a
refused one leaves the guard and the index as they were. -/
theorem received_events_form_one_chain {role : UInt8} {o : Owner} (h : Owned role o) :
    (∀ before a after, o.accepted = before ++ a :: after → a.receive = true →
      Follows (lane true before) (latestFirst (lane false before)) a.event) ∧
    ∀ x error, o.offer x = .error error → o.next x = o := by
  exact ⟨h.kept.follows, fun x error hx => Owner.next_of_error hx⟩

/-- The first event of role 0, and a guard of role 1 to which it is offered twice. -/
def firstOffer : Offer := .receive ⟨0, 0, none, 1, 1, 0, 7, 0, ⟨0, 0, none, none⟩⟩ 8 0 0

def offeredTwice : Owner :=
  ((Owner.mk ⟨2, 1, .empty, .empty, false, none, none⟩ (fun _ _ => none) []).next firstOffer).next
    firstOffer

/-- The replay is refused, the event that arrived first is kept. -/
theorem received_events_form_one_chain_sample : Owned 1 offeredTwice ∧ offeredTwice.accepted.map (·.id) = [8] ∧
    (∀ before a after, offeredTwice.accepted = before ++ a :: after → a.receive = true →
      Follows (lane true before) (latestFirst (lane false before)) a.event) ∧
    ∀ x error, offeredTwice.offer x = .error error → offeredTwice.next x = offeredTwice := by
  have h : Owned 1 offeredTwice := .next (.next (.new rfl) firstOffer) firstOffer
  exact ⟨h, by decide +kernel, received_events_form_one_chain h⟩

end Kilogram.Ordered2
