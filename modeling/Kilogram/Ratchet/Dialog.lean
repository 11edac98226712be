import Kilogram.Ratchet.Steps

/-!
# Two guards in a dialog

Two sides, each with a guard and an index of the keys it has accepted. Each sends events built from what
its guard expects; the events of a lane arrive in order, after any delay.
-/

namespace Kilogram.Ordered2
open Kilogram

/-- One side: its guard, the first use of every accepted key, the events it sent and the number of
events of the other side that have arrived. -/
structure Side where
  guard : Guard2
  seen : UInt8 → Id → Option Seen
  sent : List Sent
  received : Nat

/-- The index records each accepted key of a lane once. -/
def note (seen : UInt8 → Id → Option Seen) (role : UInt8) (key : Id) (x : Seen) : UInt8 → Id → Option Seen :=
  fun r k => if r = role ∧ k = key ∧ seen r k = none then some x else seen r k

def observe (seen : UInt8 → Id → Option Seen) (role : UInt8) (key : Id) : SeenObservation :=
  match seen role key with
  | none => .absent
  | some x => .present x

/-- What the caller of a guard chooses: the author sequence, the key and the id of the event, the key
it names before the native trial, and the generations of the store. -/
structure SendArgs where
  sequence : UInt64
  (key id trialKey : Id)
  (root native : UInt64)

namespace Side

def build (s : Side) (a : SendArgs) (e : Expected) : EventMeta :=
  let kind := if s.guard.own.next = 0 then s.guard.role + 1 else 3
  ⟨s.guard.role, s.guard.own.next, s.guard.own.last, a.sequence, kind, if kind = 1 then 0 else 1, a.key, e.index, e⟩

def send (s : Side) (a : SendArgs) : Result Side := do
  let e ← s.guard.expectedSend
  let event := s.build a e
  let step ← s.guard.preflightSend { event with key := a.trialKey } a.root a.native
  let guard ← s.guard.apply step event a.id (observe s.seen s.guard.role a.key)
  return { s with
    guard
    seen := note s.seen s.guard.role a.key ⟨e.g, a.id⟩
    sent := s.sent ++ [⟨event, a.id, guard.own⟩] }

def receive (s : Side) (m : Sent) (root native : UInt64) : Result Side := do
  let seen := observe s.seen (1 - s.guard.role) m.event.key
  let step ← s.guard.preflightReceive m.event seen root native
  let guard ← s.guard.apply step m.event m.id seen
  return { s with
    guard
    seen := note s.seen (1 - s.guard.role) m.event.key ⟨m.event.expected.g, m.id⟩
    received := s.received + 1 }

/-- The caller uses a fresh key exactly when the guard starts a chain, a fresh id, and a strictly
larger author sequence. -/
structure Admissible (s : Side) (a : SendArgs) : Prop where
  key : if s.guard.own.next = 0 ∨ s.guard.rotateDue = true then ∀ m ∈ s.sent, m.event.key ≠ a.key
    else s.guard.own.key = some a.key
  id : ∀ m ∈ s.sent, m.id ≠ a.id
  sequence : ∀ q, s.guard.own.sequence = some q → q < a.sequence

end Side

/-- The states of the dialog, by the role of each side. -/
inductive Reachable : Two Side → Prop
  | start {g0 g1 : Guard2} (h0 : Guard2.new 0 = .ok g0) (h1 : Guard2.new 1 = .ok g1) :
      Reachable ⟨⟨g0, fun _ _ => none, [], 0⟩, ⟨g1, fun _ _ => none, [], 0⟩⟩
  | send {s : Two Side} {role : UInt8} {a : SendArgs} {x : Side} (hs : Reachable s) (hrole : role ≤ 1)
      (ha : (s.get role).Admissible a) (h : (s.get role).send a = .ok x) : Reachable (s.set role x)
  | receive {s : Two Side} {role : UInt8} {m : Sent} {root native : UInt64} {x : Side}
      (hs : Reachable s) (hrole : role ≤ 1)
      (hm : (s.get (1 - role)).sent[(s.get role).received]? = some m)
      (h : (s.get role).receive m root native = .ok x) : Reachable (s.set role x)

namespace Side
variable {s : Side} {m : Sent}

theorem checkSeen_present {l : Lane} {key : Id} {g : UInt64} {role : UInt8} {f : Id}
    (hkey : l.key = some key) (hfirst : l.first = some f) (hseen : s.seen role key = some ⟨g, f⟩) :
    checkSeen l key g (observe s.seen role key) = .ok () := by
  simp [checkSeen, observe, hseen, hkey, hfirst]

theorem checkSeen_absent {l : Lane} {key : Id} {g : UInt64} {role : UInt8}
    (hkey : l.key ≠ some key) (hseen : s.seen role key = none) :
    checkSeen l key g (observe s.seen role key) = .ok () := by
  simp [checkSeen, observe, hseen, hkey]

/-- A send goes through, up to exhausted counters, when the guard expects something, the index knows
the key as it should, and the guard after it is in order. -/
theorem send_meets {a : SendArgs} {P : Expected → Prop} {T : UInt64 → Prop} (hs : s.guard.Ok)
    (hsequence : ∀ q, s.guard.own.sequence = some q → q < a.sequence)
    (hexpected : s.guard.expectedSend.Meets Exhausted P) (hturn : ∀ e : EventMeta, P e.expected →
      (s.guard.postTurn false e).Meets Exhausted fun _ => T e.expected.g)
    (hkey : s.guard.own.next ≠ 0 → s.guard.rotateDue = false → s.guard.own.key = some a.key)
    (hseen : ∀ x, P x → checkSeen s.guard.own a.key x.g (observe s.seen s.guard.role a.key) = .ok ())
    (htrial : ∀ m : Sent, P m.event.expected → T m.event.expected.g →
      Header s.guard.role s.guard.own m.event → Fits m.event → m.event.key = a.key → m.id = a.id →
      (∃ next, next.toNat = m.event.n.toNat + 1 ∧ m.lane = s.guard.own.record m.event m.id next) →
      ({ s.guard with own := m.lane, rotateDue := false } : Guard2).Ok) :
    (s.send a).Meets Exhausted fun s' => ∃ m : Sent, P m.event.expected ∧ T m.event.expected.g ∧
      Header s.guard.role s.guard.own m.event ∧ Fits m.event ∧ m.event.key = a.key ∧ m.id = a.id ∧
      (∃ next, next.toNat = m.event.n.toNat + 1 ∧ m.lane = s.guard.own.record m.event m.id next) ∧
      ({ s.guard with own := m.lane, rotateDue := false } : Guard2).Ok ∧
      s' = ⟨{ s.guard with own := m.lane, rotateDue := false },
        note s.seen s.guard.role a.key ⟨m.event.expected.g, a.id⟩, s.sent ++ [m], s.received⟩ := by
  have hE (kind : Counter) : Exhausted (.counterExhausted kind) := ⟨kind, rfl⟩
  have hboth : s.guard.expectedSend.Meets Exhausted fun x => P x ∧ s.guard.expectedSend = .ok x := by
    cases h : s.guard.expectedSend with
    | ok x =>
      rw [h] at hexpected
      exact ⟨hexpected, rfl⟩
    | error e =>
      rw [h] at hexpected
      exact hexpected
  unfold send
  apply Except.meets_bind hboth
  rintro x ⟨hx, hok⟩
  have hheader : ∀ key, Header s.guard.role s.guard.own { s.build a x with key } :=
    fun key => ⟨rfl, rfl, rfl, hsequence, rfl, rfl, rfl⟩
  apply Except.meets_bind (Guard2.preflight_meets false none
    (e := { s.build a x with key := a.trialKey }) (T := T x.g) hs (.inl (hE _)) (.inl (hE _)) (hheader a.trialKey) (.inl (hE _))
    (.inl (hE _)) (.inl (hE _)) (Except.meets_of_eq_ok hok rfl) rfl
    (hturn { s.build a x with key := a.trialKey } hx))
  rintro step ⟨⟨hbefore, hevent, hreceive⟩, hnext, hfits, hT⟩
  have htrialEq : s.guard.trial step (s.build a x) a.id =
      { s.guard with own := s.guard.own.record (s.build a x) a.id step.next, rotateDue := false } := by
    rw [Guard2.trial, hreceive]
    rfl
  have hokay := htrial ⟨s.build a x, a.id, s.guard.own.record (s.build a x) a.id step.next⟩ hx hT
    (hheader a.key) ⟨hfits.n, hfits.sequence, hfits.index⟩ rfl rfl ⟨step.next, hnext, rfl⟩
  have happly := Guard2.apply_eq_ok (s := s.guard) (e := s.build a x) step a.id
    (observe s.seen s.guard.role a.key) hbefore
    (by rw [hreceive, hevent]; rfl) (fun _ => hkey) (by rw [hreceive]; exact hseen x hx)
    (by rw [htrialEq]; exact hokay)
  rw [htrialEq] at happly
  apply Except.meets_bind (Except.meets_of_eq_ok (P := fun g => g = _) happly rfl)
  rintro _ rfl
  exact ⟨⟨s.build a x, a.id, s.guard.own.record (s.build a x) a.id step.next⟩, hx, hT, hheader a.key,
    ⟨hfits.n, hfits.sequence, hfits.index⟩, rfl, rfl, ⟨step.next, hnext, rfl⟩, hokay, rfl⟩

def arrived (s : Side) (m : Sent) : Guard2 :=
  if s.guard.peer.key = some m.event.key then { s.guard with peer := m.lane }
  else { s.guard with
    rotateDue := true
    receivedNewFirst := some m.id
    usedOwnFirst := s.guard.own.first
    peer := m.lane }

theorem receive_eq_ok {root native : UInt64} (hs : s.guard.Ok) (hroot : root.toNat + 1 < 2 ^ 64)
    (hnative : native.toNat + 1 < 2 ^ 64)
    (hheader : Header (1 - s.guard.role) s.guard.peer m.event) (hfits : Fits m.event)
    (hexpected : (s.guard.expectedReceive m.event.key).Meets (fun _ => False)
      fun x => m.event.expected = x)
    (hseen : checkSeen s.guard.peer m.event.key m.event.expected.g
      (observe s.seen (1 - s.guard.role) m.event.key) = .ok ())
    (hturn : (s.guard.postTurn true m.event).Meets (fun _ => False) fun _ => True)
    (hlane : ∃ next, next.toNat = m.event.n.toNat + 1 ∧
      m.lane = s.guard.peer.record m.event m.id next) (htrial : (s.arrived m).Ok) :
    s.receive m root native = .ok ⟨s.arrived m,
      note s.seen (1 - s.guard.role) m.event.key ⟨m.event.expected.g, m.id⟩, s.sent,
      s.received + 1⟩ := by
  obtain ⟨next, hnext, hlane⟩ := hlane
  obtain ⟨step, hstep, ⟨hbefore, hevent, hreceive⟩, hnext', _⟩ := (Guard2.preflight_meets (E := fun _ => False) true
      (some (observe s.seen (1 - s.guard.role) m.event.key)) hs (.inr hroot) (.inr hnative)
      hheader (.inr hfits.n) (.inr hfits.sequence) (.inr hfits.index) hexpected hseen
      hturn).exists_ok
  have hsame : step.next = next := UInt64.toNat_inj.mp (hnext'.trans hnext.symm)
  have htrialEq : s.guard.trial step m.event m.id = s.arrived m := by
    rw [Guard2.trial, hreceive, if_pos rfl, hsame, ← hlane, arrived]
    by_cases h : s.guard.peer.key = some m.event.key
    · rw [if_neg (not_not.mpr h), if_pos h]
    · rw [if_pos h, if_neg h]
  have happly := Guard2.apply_eq_ok (s := s.guard) (e := m.event) step m.id
    (observe s.seen (1 - s.guard.role) m.event.key) hbefore
    (by rw [hreceive, hevent]; rfl) (fun h => absurd h (by simp [hreceive]))
    (by rw [hreceive]; exact hseen) (by rw [htrialEq]; exact htrial)
  unfold receive
  refine (Except.bind_of_ok hstep _).trans ((Except.bind_of_ok happly _).trans ?_)
  rw [htrialEq]
  rfl

end Side
end Kilogram.Ordered2
