import Kilogram.Ratchet.Sides

/-!
# Two guards understand each other

The chains of both lanes take turns.
-/

namespace Kilogram.Ordered2
open Kilogram
variable {x : UInt8} {X Y X' Y' : Side} {m : Sent} {a : SendArgs} {root native : UInt64}

structure Idle (X Y : Side) : Prop where
  mine : X.sent = [] ∧ X.guard.usedOwnFirst = none ∧ X.guard.rotateDue = false
  theirs : Y.sent = [] ∧ Y.guard.usedOwnFirst = none ∧ Y.guard.rotateDue = false

/-- `X` holds the last turn and `Y`, that knows it, is due to rotate. -/
structure Calm (x : UInt8) (X Y : Side) : Prop where
  out : Quiet x Y.guard.peer (inFlight X Y)
  back : Quiet (1 - x) X.guard.peer (inFlight Y X)
  started : X.guard.own.next ≠ 0
  free : X.guard.rotateDue = false
  unused : X.guard.usedOwnFirst ≠ X.guard.own.first
  due : Y.guard.rotateDue = true

/-- `X` holds the last turn, and the event that starts it is on its way to `Y`. -/
structure Flying (x : UInt8) (X Y : Side) : Prop where
  out : Pending x Y.guard.own.first (fun k => Y.seen x k = none) Y.guard.peer (inFlight X Y)
  back : Quiet (1 - x) X.guard.peer (inFlight Y X)
  free : X.guard.rotateDue = false
  unused : X.guard.usedOwnFirst ≠ X.guard.own.first
  waits : Y.guard.rotateDue = false
  unanswered : Y.guard.own.next ≠ 0 → Y.guard.usedOwnFirst ≠ Y.guard.own.first

def Phase (x : UInt8) (X Y : Side) : Prop :=
  Idle X Y ∨ Calm x X Y ∨ Calm (1 - x) Y X ∨ Flying x X Y ∨ Flying (1 - x) Y X

structure Joint (x : UInt8) (X Y : Side) : Prop where
  ok : X.guard.Ok ∧ Y.guard.Ok
  role : X.guard.role = x ∧ Y.guard.role = 1 - x
  out : Link x X Y
  back : Link (1 - x) Y X
  phase : Phase x X Y

theorem one_sub_one_sub {x : UInt8} (hx : x ≤ 1) : 1 - (1 - x) = x := by
  rcases Two.eq_zero_or_one hx with rfl | rfl <;> decide

theorem one_sub_ne {x : UInt8} (hx : x ≤ 1) : 1 - x ≠ x := by
  rcases Two.eq_zero_or_one hx with rfl | rfl <;> decide

theorem Joint.le (h : Joint x X Y) : x ≤ 1 := h.role.1 ▸ h.ok.1.role

theorem Joint.symm (h : Joint x X Y) : Joint (1 - x) Y X := by
  have hx := one_sub_one_sub h.le
  refine ⟨h.ok.symm, ⟨h.role.2, hx.symm ▸ h.role.1⟩, h.back, hx.symm ▸ h.out, ?_⟩
  unfold Phase
  rw [hx]
  rcases h.phase with hp | hp | hp | hp | hp
  · exact .inl ⟨hp.theirs, hp.mine⟩
  · exact .inr (.inr (.inl hp))
  · exact .inr (.inl hp)
  · exact .inr (.inr (.inr (.inr hp)))
  · exact .inr (.inr (.inr (.inl hp)))

/-- Where a quiet lane ends, it began: the receiver knows the chain of the sender. -/
theorem Link.peer_eq (hl : Link x X Y) (hq : Quiet x Y.guard.peer (inFlight X Y)) :
    X.guard.own.g = Y.guard.peer.g ∧ X.guard.own.first = Y.guard.peer.first ∧
      (X.guard.own.next = 0 ↔ Y.guard.peer.next = 0) := by
  have := hq.same
  rwa [hl.lastLane_inFlight] at this

theorem Pending.next_ne {parent : Option Id} {fresh : Id → Prop} {l : Lane} {ms : List Sent}
    (h : Pending x parent fresh l ms) : (lastLane l ms).next ≠ 0 := by
  induction h with
  | here hm _ hms => exact fun h => hm.lane_eq.1 (hms.same.2.2.mp h)
  | later _ _ ih => exact ih

theorem Flying.started (h : Flying x X Y) (hl : Link x X Y) : X.guard.own.next ≠ 0 := by
  rw [← hl.lastLane_inFlight]
  exact h.out.next_ne

theorem Flying.of_blank (h : Flying x X Y) (hj : Joint x X Y) (hzero : Y.guard.own.next = 0) :
    Y.guard.role = 1 ∧ Y.guard.peer.next = 0 := by
  have hpeer : X.guard.peer.next = 0 := (hj.back.peer_eq h.back).2.2.mp hzero
  have hrole := (hj.ok.1.outbound hpeer (h.started hj.out)).1
  have hx : x = 0 := hj.role.1.symm.trans hrole
  refine ⟨by rw [hj.role.2, hx]; decide, ?_⟩
  by_contra hne
  have := (hj.ok.2.inbound hne hzero).2.2
  cases this.symm.trans h.waits

theorem Idle.own_eq (h : Idle X Y) (hl : Link x X Y) : X.guard.own = .empty ∧ Y.guard.peer = .empty := by
  rw [hl.own, hl.peer, h.mine.1]
  exact ⟨rfl, by simp [lastLane]⟩

theorem Idle.inFlight_eq (h : Idle X Y) : inFlight X Y = [] := by
  rw [inFlight, h.mine.1, List.drop_nil]

/-- The side that opens the dialog has not done so while nothing was sent. -/
theorem Joint.used_of_blank (hj : Joint x X Y) (hrole : X.guard.role = 0)
    (hzero : X.guard.own.next = 0) (hdue : X.guard.rotateDue = false) :
    X.guard.usedOwnFirst = X.guard.own.first := by
  rcases hj.phase with hp | hp | hp | hp | hp
  · rw [(hp.own_eq hj.out).1, hp.mine.2.1]
    rfl
  · exact absurd hzero hp.started
  · cases hp.due.symm.trans hdue
  · exact absurd hzero (hp.started hj.out)
  · have := (hp.of_blank hj.symm hzero).1
    exact absurd (hrole.symm.trans this) (by decide)

theorem Joint.of_sends (hj : Joint x X Y) (h : Sends x X X' m) (hphase : Phase x X' Y) : Joint x X' Y :=
  ⟨⟨h.ok, hj.ok.2⟩, ⟨by rw [h.guard]; exact hj.role.1, hj.role.2⟩, h.link hj.out,
    h.link_back (one_sub_ne hj.le) hj.back, hphase⟩

theorem Sends.inFlight_back (h : Sends x X X' m) : inFlight Y X' = inFlight Y X := by
  rw [inFlight, h.received, inFlight]

theorem Phase.continue_own (hj : Joint x X Y) (h : Sends x X X' m)
    (hm : Continues x X.guard.own m) (hdue : X.guard.rotateDue = false) : Phase x X' Y := by
  obtain ⟨hne, _, _, hfirst⟩ := hm.lane_eq
  have hown : X'.guard.own = m.lane := by rw [h.guard]
  have hpeer : X'.guard.peer = X.guard.peer := by rw [h.guard]
  have hfree : X'.guard.rotateDue = false := by rw [h.guard]
  have hused : X'.guard.usedOwnFirst = X.guard.usedOwnFirst := by rw [h.guard]
  have hcont : Continues x (lastLane Y.guard.peer (inFlight X Y)) m := hj.out.lastLane_inFlight ▸ hm
  have hflight := inFlight_send hj.out h.sent
  rcases hj.phase with hp | hp | hp | hp | hp
  · rw [(hp.own_eq hj.out).1] at hm
    exact absurd rfl hm.started
  · right; left
    refine ⟨hflight ▸ hp.out.append hcont, ?_, hown ▸ hne, hfree, ?_, hp.due⟩
    · rw [h.inFlight_back, hpeer]
      exact hp.back
    · rw [hused, hown, hfirst]
      exact hp.unused
  · cases hp.due.symm.trans hdue
  · right; right; right; left
    refine ⟨hflight ▸ hp.out.append hcont, ?_, hfree, ?_, hp.waits, hp.unanswered⟩
    · rw [h.inFlight_back, hpeer]
      exact hp.back
    · rw [hused, hown, hfirst]
      exact hp.unused
  · right; right; right; right
    have hx := one_sub_one_sub hj.le
    refine ⟨?_, ?_, hp.free, hp.unused, hfree, ?_⟩
    · rw [h.inFlight_back, hpeer, hown, hfirst]
      apply hp.out.mono
      intro k hk
      rw [h.other _ (one_sub_ne hj.le)]
      exact hk
    · rw [hflight, hx]
      have hback := hp.back
      rw [hx] at hback
      exact hback.append hcont
    · intro _
      rw [hused, hown, hfirst]
      exact hp.unanswered hm.started

theorem Phase.start_own (hj : Joint x X Y) (h : Sends x X X' m)
    (hm : Starts x X.guard.own X.guard.peer.first m) (hseen : X.seen x m.event.key = none)
    (hstart : X.guard.MayStart) (hunused : X.guard.usedOwnFirst ≠ some m.id) : Phase x X' Y := by
  obtain ⟨hne, _, _, hfirst⟩ := hm.lane_eq
  have hown : X'.guard.own = m.lane := by rw [h.guard]
  have hpeer : X'.guard.peer = X.guard.peer := by rw [h.guard]
  have hfree : X'.guard.rotateDue = false := by rw [h.guard]
  have hused : X'.guard.usedOwnFirst ≠ X'.guard.own.first := by
    rw [hown, hfirst, h.guard]
    exact hunused
  have hstarts : Starts x (lastLane Y.guard.peer (inFlight X Y)) X.guard.peer.first m := hj.out.lastLane_inFlight ▸ hm
  have hflight := inFlight_send hj.out h.sent
  have hfresh : Y.seen x m.event.key = none := hj.out.known _ hseen
  have hx := one_sub_one_sub hj.le
  have hidle (hz : X.guard.own.next ≠ 0) : X.guard.rotateDue = true := hstart.resolve_right fun h => hz h.2
  rcases hj.phase with hp | hp | hp | hp | hp
  · right; right; right; left
    have hY : Y.guard.own = .empty ∧ X.guard.peer = .empty := Idle.own_eq ⟨hp.theirs, hp.mine⟩ hj.back
    have hempty : inFlight Y X = [] := Idle.inFlight_eq ⟨hp.theirs, hp.mine⟩
    rw [hY.2] at hstarts
    refine ⟨?_, ?_, hfree, hused, hp.theirs.2.2, fun h => absurd (by rw [hY.1]; rfl) h⟩
    · rw [hflight, hY.1]
      rw [hp.inFlight_eq] at hstarts ⊢
      exact .here hstarts hfresh (.nil _)
    · rw [h.inFlight_back, hempty]
      exact .nil _
  · cases (hidle hp.started).symm.trans hp.free
  · right; right; right; left
    obtain ⟨_, heq, _⟩ := hj.back.peer_eq hp.out
    have hback := hp.back
    rw [hx] at hback
    refine ⟨?_, ?_, hfree, hused, hp.free, fun _ => hp.unused⟩
    · rw [hflight, heq]
      exact hback.start hstarts hfresh
    · rw [h.inFlight_back, hpeer]
      exact hp.out
  · exact absurd ((hidle (hp.started hj.out)).symm.trans hp.free) (by simp)
  · -- a side that waits for the first event of all does not start
    rcases hstart with hdue | ⟨hrole, hzero⟩
    · cases hdue.symm.trans hp.waits
    · have := (hp.of_blank hj.symm hzero).1
      exact absurd (hrole.symm.trans this) (by decide)

/-- The side that answers has nothing to send before the first event of the other one. -/
def Waits (s : Side) (e : Error) : Prop := s.guard.role = 1 ∧ s.guard.peer.next = 0 ∧ s.guard.expectedSend = .error e

theorem send_waits (hs : X.guard.Ok) (hrole : X.guard.role = 1) (hzero : X.guard.own.next = 0)
    (hpeer : X.guard.peer.next = 0) : ∃ e, X.send a = .error e ∧ Waits X e := by
  have hexpected : X.guard.expectedSend = .error (.input "Confirm before Init") := by
    rw [Guard2.expectedSend, Except.bind_of_ok hs.validate, if_pos hzero, Guard2.genesis,
      if_neg (by rw [hrole]; decide), hs.peer.first.mpr hpeer]
    rfl
  exact ⟨_, by rw [Side.send, hexpected]; rfl, hrole, hpeer, hexpected⟩

theorem Joint.send (hj : Joint x X Y) (ha : X.Admissible a) :
    (X.send a).Meets (fun e => Exhausted e ∨ Waits X e) fun X' => Joint x X' Y := by
  have hstart (hmay : X.guard.MayStart) (hused : X.guard.usedOwnFirst = X.guard.own.first) :
      (X.send a).Meets (fun e => Exhausted e ∨ Waits X e) fun X' => Joint x X' Y := by
    apply (send_start hj.ok.1 hj.role.1 hj.out hmay hused ha).mono (fun _ h => .inl h)
    rintro X' ⟨m, hm, hseen, hunused, hsends⟩
    exact hj.of_sends hsends (Phase.start_own hj hsends hm hseen hmay hunused)
  rcases hdue : X.guard.rotateDue with _ | _
  · by_cases hzero : X.guard.own.next = 0
    · have hpeer : X.guard.peer.next = 0 := by
        by_contra hne
        have := (hj.ok.1.inbound hne hzero).2.2
        cases this.symm.trans hdue
      rcases Two.eq_zero_or_one hj.ok.1.role with hrole | hrole
      · exact hstart (.inr ⟨hrole, hzero⟩) (hj.used_of_blank hrole hzero hdue)
      · obtain ⟨e, he, hwaits⟩ := send_waits (a := a) hj.ok.1 hrole hzero hpeer
        rw [he]
        exact .inr hwaits
    · apply (send_continue hj.ok.1 hj.role.1 hj.out hzero hdue ha).mono (fun _ h => .inl h)
      rintro X' ⟨m, hm, hsends⟩
      exact hj.of_sends hsends (Phase.continue_own hj hsends hm hdue)
  · exact hstart (.inl hdue) (hj.ok.1.due.mp hdue).2

theorem Joint.of_receives (hj : Joint x X Y) (h : Receives x Y Y' m)
    (hm : X.sent[Y.received]? = some m) (hphase : Phase x X Y') : Joint x X Y' := by
  have hrole : Y'.guard.role = Y.guard.role := by
    rw [h.guard]
    exact (Y.arrived_eq m).2.2
  exact ⟨⟨hj.ok.1, h.ok⟩, ⟨hj.role.1, hrole.trans hj.role.2⟩, h.link hj.out hm,
    h.link_back (one_sub_ne hj.le) hj.back, hphase⟩

theorem Receives.inFlight_eq (h : Receives x Y Y' m) (hm : X.sent[Y.received]? = some m) :
    inFlight X Y = m :: inFlight X Y' := by
  rw [inFlight_cons hm, inFlight, h.received]

theorem Receives.inFlight_back (h : Receives x Y Y' m) : inFlight Y' X = inFlight Y X := by
  rw [inFlight, h.sent, inFlight]

/-- The next event of a lane continues the chain of the receiver, or starts one that answers it. -/
theorem Joint.arrival (hj : Joint x X Y) (hm : X.sent[Y.received]? = some m) :
    Continues x Y.guard.peer m ∨ Flying x X Y ∧ Starts x Y.guard.peer Y.guard.own.first m ∧
      Y.seen x m.event.key = none := by
  have hflight := inFlight_cons hm
  rcases hj.phase with hp | hp | hp | hp | hp
  · rw [hp.inFlight_eq] at hflight
    simp at hflight
  · have hout := hp.out
    rw [hflight] at hout
    cases hout with
    | cons hc _ => exact .inl hc
  · have hback := hp.back
    rw [hflight, one_sub_one_sub hj.le] at hback
    cases hback with
    | cons hc _ => exact .inl hc
  · have hout := hp.out
    rw [hflight] at hout
    cases hout with
    | here hs hkey _ => exact .inr ⟨hp, hs, hkey⟩
    | later hc _ => exact .inl hc
  · have hback := hp.back
    rw [hflight, one_sub_one_sub hj.le] at hback
    cases hback with
    | cons hc _ => exact .inl hc

theorem Phase.continue_peer (hj : Joint x X Y) (h : Receives x Y Y' m)
    (hm : X.sent[Y.received]? = some m) (hc : Continues x Y.guard.peer m)
    (hguard : Y'.guard = { Y.guard with peer := m.lane }) : Phase x X Y' := by
  have hown : Y'.guard.own = Y.guard.own := by rw [hguard]
  have hpeer : Y'.guard.peer = m.lane := by rw [hguard]
  have hdue : Y'.guard.rotateDue = Y.guard.rotateDue := by rw [hguard]
  have hused : Y'.guard.usedOwnFirst = Y.guard.usedOwnFirst := by rw [hguard]
  have hflight := h.inFlight_eq hm
  have hx := one_sub_one_sub hj.le
  have hquiet : Quiet x Y.guard.peer (inFlight X Y) → Quiet x Y'.guard.peer (inFlight X Y') := by
    intro hq
    rw [hflight] at hq
    rw [hpeer]
    cases hq with
    | cons _ hms => exact hms
  rcases hj.phase with hp | hp | hp | hp | hp
  · rw [hp.inFlight_eq] at hflight
    simp at hflight
  · right; left
    exact ⟨hquiet hp.out, h.inFlight_back ▸ hp.back, hp.started, hp.free, hp.unused, hdue.trans hp.due⟩
  · right; right; left
    have hback := hp.back
    rw [hx] at hback
    refine ⟨h.inFlight_back ▸ hp.out, hx.symm ▸ hquiet hback, hown ▸ hp.started, hdue.trans hp.free, ?_, hp.due⟩
    rw [hused, hown]
    exact hp.unused
  · right; right; right; left
    have hout := hp.out
    rw [hflight] at hout
    refine ⟨?_, h.inFlight_back ▸ hp.back, hp.free, hp.unused, hdue.trans hp.waits, ?_⟩
    · rw [hpeer, hown]
      cases hout with
      | here hs _ _ => exact absurd hc.key hs.key
      | later _ hms =>
        apply hms.mono
        intro k hk
        -- the key of the event is known, so it is not the fresh one
        by_contra hne
        rcases h.noted.only k hne with hbad | rfl
        · exact hbad hk
        · exact key_ne_of_not_seen hj.ok.2.peer hj.out.peerSeen hk hc.key
    · rw [hused, hown]
      exact hp.unanswered
  · right; right; right; right
    have hback := hp.back
    rw [hx] at hback
    refine ⟨h.inFlight_back ▸ hp.out, hx.symm ▸ hquiet hback, hdue.trans hp.free, ?_, hp.waits, hp.unanswered⟩
    rw [hused, hown]
    exact hp.unused

theorem Flying.rest (hp : Flying x X Y) (hm : X.sent[Y.received]? = some m)
    (hs : Starts x Y.guard.peer Y.guard.own.first m) :
    Quiet x m.lane (X.sent.drop (Y.received + 1)) := by
  have hout := hp.out
  rw [inFlight_cons hm] at hout
  cases hout with
  | here _ _ hms => exact hms
  | later hc _ => exact absurd hc.key hs.key

theorem Flying.turn (hp : Flying x X Y) (hj : Joint x X Y) (hm : X.sent[Y.received]? = some m)
    (hs : Starts x Y.guard.peer Y.guard.own.first m) (hne : Y.guard.own.next ≠ 0) :
    Y.guard.own.g.toNat * 2 + Y.guard.role.toNat + 1 = m.event.expected.g.toNat * 2 + x.toNat := by
  obtain ⟨hg, _, hnext⟩ := hj.back.peer_eq hp.back
  have hpeer : X.guard.peer.next ≠ 0 := fun h => hne (hnext.mpr h)
  have hahead := hj.ok.1.ahead hpeer (hp.started hj.out) hp.free
  have hown : X.guard.own.g = m.event.expected.g := by
    rw [← hj.out.lastLane_inFlight, inFlight_cons hm]
    exact (hp.rest hm hs).same.1.trans hs.lane_eq.2.1
  rw [hj.role.1, ← hg, hown] at hahead
  rw [hj.role.2]
  exact hahead

theorem Phase.start_peer (hj : Joint x X Y) (h : Receives x Y Y' m)
    (hm : X.sent[Y.received]? = some m) (hp : Flying x X Y)
    (hs : Starts x Y.guard.peer Y.guard.own.first m) (hdue : Y'.guard.rotateDue = true) :
    Phase x X Y' := by
  right; left
  refine ⟨?_, h.inFlight_back ▸ hp.back, hp.started hj.out, hp.free, hp.unused, hdue⟩
  rw [h.guard, (Y.arrived_eq m).2.1, inFlight, h.received]
  exact hp.rest hm hs

theorem Joint.receive (hj : Joint x X Y) (hm : X.sent[Y.received]? = some m)
    (hroot : root.toNat + 1 < 2 ^ 64) (hnative : native.toNat + 1 < 2 ^ 64) :
    (Y.receive m root native).Meets (fun _ => False) fun Y' => Joint x X Y' := by
  have hrole : 1 - Y.guard.role = x := by rw [hj.role.2, one_sub_one_sub hj.le]
  rcases hj.arrival hm with hc | ⟨hp, hs, hfresh⟩
  · apply (receive_continue hj.ok.2 hrole hj.out hc hroot hnative).mono (fun _ h => h)
    rintro Y' ⟨h, hguard⟩
    exact hj.of_receives h hm (Phase.continue_peer hj h hm hc hguard)
  · apply (receive_start hj.ok.2 hrole hj.out hs hfresh hp.waits hp.unanswered (hp.turn hj hm hs)
      (hp.of_blank hj) hroot hnative).mono (fun _ h => h)
    rintro Y' ⟨h, hdue⟩
    exact hj.of_receives h hm (Phase.start_peer hj h hm hp hs hdue)

theorem joint_start {g0 g1 : Guard2} (h0 : Guard2.new 0 = .ok g0) (h1 : Guard2.new 1 = .ok g1) :
    Joint 0 ⟨g0, fun _ _ => none, [], 0⟩ ⟨g1, fun _ _ => none, [], 0⟩ := by
  cases h0
  cases h1
  have hok (r : UInt8) (hr : r ≤ 1) : Guard2.Ok ⟨2, r, .empty, .empty, false, none, none⟩ := by
    refine ⟨rfl, hr, Lane.ok_empty r, Lane.ok_empty _, ?_, rfl, fun h => absurd rfl h,
      fun h => absurd rfl h, fun h => absurd rfl h, fun _ h => absurd rfl h⟩
    simp [Lane.empty]
  have hlink (r : UInt8) (g h : Guard2) (hg : g.own = .empty) (hh : h.peer = .empty) :
      Link r ⟨g, fun _ _ => none, [], 0⟩ ⟨h, fun _ _ => none, [], 0⟩ := by
    constructor <;> simp [hg, hh, lastLane, Lane.empty]
  exact ⟨⟨hok 0 (by decide), hok 1 (by decide)⟩, ⟨rfl, rfl⟩, hlink _ _ _ rfl rfl,
    hlink _ _ _ rfl rfl, .inl ⟨⟨rfl, rfl, rfl⟩, rfl, rfl, rfl⟩⟩

theorem joint_set {s : Two Side} {role : UInt8} {X : Side} (hrole : role ≤ 1)
    (hj : Joint role X (s.get (1 - role))) : Joint 0 (s.set role X).zero (s.set role X).one := by
  rcases Two.eq_zero_or_one hrole with rfl | rfl
  · exact hj
  · exact hj.symm

theorem joint_get {s : Two Side} {role : UInt8} (hrole : role ≤ 1) (hj : Joint 0 s.zero s.one) :
    Joint role (s.get role) (s.get (1 - role)) := by
  rcases Two.eq_zero_or_one hrole with rfl | rfl
  · exact hj
  · exact hj.symm

theorem generations_of_receive (h : Y.receive m root native = .ok Y') :
    root.toNat + 1 < 2 ^ 64 ∧ native.toNat + 1 < 2 ^ 64 := by
  have hsucc {n p : UInt64} {kind : Counter} (hp : successor n kind = .ok p) : n.toNat + 1 < 2 ^ 64 := by
    have hp := checkedAdd_eq_some.mp (Except.okOr_eq_ok.mp hp)
    have hlt := p.toNat_lt
    rwa [hp] at hlt
  obtain ⟨step, hstep, _⟩ := Except.bind_eq_ok.mp h
  obtain ⟨_, _, hstep⟩ := Except.bind_eq_ok.mp hstep
  obtain ⟨_, hgen, _⟩ := Except.bind_eq_ok.mp hstep
  obtain ⟨_, hroot, hgen⟩ := Except.bind_eq_ok.mp hgen
  obtain ⟨_, hnative, _⟩ := Except.bind_eq_ok.mp hgen
  exact ⟨hsucc hroot, hsucc hnative⟩

theorem Reachable.joint {s : Two Side} (hs : Reachable s) : Joint 0 s.zero s.one := by
  induction hs with
  | start h0 h1 => exact joint_start h0 h1
  | send _ hrole ha h ih => exact joint_set hrole (((joint_get hrole ih).send ha).of_ok h)
  | @receive s role m root native x _ hrole hm h ih =>
    obtain ⟨hroot, hnative⟩ := generations_of_receive h
    have hj := (joint_get hrole ih).symm
    exact joint_set hrole (by
      have := ((hj.receive hm hroot hnative).of_ok h).symm
      rwa [one_sub_one_sub hrole] at this)

def Side.turn (s : Side) : Nat := s.guard.own.g.toNat * 2 + s.guard.role.toNat

/-- How far a side and its peer understand each other. -/
structure Understands (s t : Side) : Prop where
  /-- An event built from what the guard expects is sent, as long as the counters last. -/
  sends : ∀ a, s.Admissible a → (s.send a).Meets (fun e => Exhausted e ∨ Waits s e) fun _ => True
  /-- The next event of the peer is accepted. -/
  receives : ∀ m root native, t.sent[s.received]? = some m → root.toNat + 1 < 2 ^ 64 →
    native.toNat + 1 < 2 ^ 64 → ∃ s', s.receive m root native = .ok s'
  /-- The lane of the peer is the one the peer had after the last event that arrived. -/
  lane : s.guard.peer = ((t.sent.take s.received).getLast?.map Sent.lane).getD .empty
  /-- Only one side is due to rotate, and it is one turn behind. -/
  due : s.guard.rotateDue = true → t.guard.rotateDue = false ∧
    if s.guard.own.next = 0 then t.turn = 0 else s.turn + 1 = t.turn
  turns : s.guard.own.next ≠ 0 → t.guard.own.next ≠ 0 → s.turn + 1 = t.turn ∨ t.turn + 1 = s.turn
  /-- A key belongs to one generation of a lane. -/
  keys : ∀ m ∈ s.sent, ∀ n ∈ s.sent, m.event.key = n.event.key → m.event.expected.g = n.event.expected.g

theorem lastLane_eq_getD (l : Lane) (ms : List Sent) : lastLane l ms = (ms.getLast?.map Sent.lane).getD l := by
  induction ms using List.reverseRecOn with
  | nil => rfl
  | append_singleton ms m _ => simp [lastLane]

theorem Link.turns (hl : Link x X Y) (hq : Quiet x Y.guard.peer (inFlight X Y)) (hY : Y.guard.Ok)
    (hrole : X.guard.role = 1 - Y.guard.role) (hX : X.guard.own.next ≠ 0)
    (hown : Y.guard.own.next ≠ 0) :
    if Y.guard.rotateDue = true then Y.turn + 1 = X.turn else X.turn + 1 = Y.turn := by
  obtain ⟨hg, _, hnext⟩ := hl.peer_eq hq
  have hpeer : Y.guard.peer.next ≠ 0 := fun h => hX (hnext.mpr h)
  unfold Side.turn
  rw [hg, hrole]
  split
  · next hdue => exact hY.behind hpeer hown hdue
  · next hdue => exact hY.ahead hpeer hown (by simpa using hdue)

theorem Joint.role_eq (hj : Joint x X Y) : Y.guard.role = 1 - X.guard.role := by
  rw [hj.role.1, hj.role.2]

theorem Joint.turns (hj : Joint x X Y) (hX : X.guard.own.next ≠ 0) (hY : Y.guard.own.next ≠ 0) :
    X.turn + 1 = Y.turn ∨ Y.turn + 1 = X.turn := by
  have hout (hq : Quiet x Y.guard.peer (inFlight X Y)) : X.turn + 1 = Y.turn ∨ Y.turn + 1 = X.turn := by
    have := hj.out.turns hq hj.ok.2 hj.symm.role_eq hX hY
    split at this
    · exact .inr this
    · exact .inl this
  have hback (hq : Quiet (1 - x) X.guard.peer (inFlight Y X)) : X.turn + 1 = Y.turn ∨ Y.turn + 1 = X.turn := by
    have := hj.back.turns hq hj.ok.1 hj.role_eq hY hX
    split at this
    · exact .inl this
    · exact .inr this
  rcases hj.phase with hp | hp | hp | hp | hp
  · exact absurd (by rw [(hp.own_eq hj.out).1]; rfl) hX
  · exact hout hp.out
  · exact hback hp.out
  · exact hback hp.back
  · exact hout (one_sub_one_sub hj.le ▸ hp.back)

theorem Joint.due (hj : Joint x X Y) (hdue : X.guard.rotateDue = true) : Y.guard.rotateDue = false ∧
      if X.guard.own.next = 0 then Y.turn = 0 else X.turn + 1 = Y.turn := by
  have hcalm : Calm (1 - x) Y X := by
    rcases hj.phase with hp | hp | hp | hp | hp
    · cases hdue.symm.trans hp.mine.2.2
    · cases hdue.symm.trans hp.free
    · exact hp
    · cases hdue.symm.trans hp.free
    · cases hdue.symm.trans hp.waits
  refine ⟨hcalm.free, ?_⟩
  split
  · next hzero =>
    obtain ⟨_, hturn, _⟩ := hj.ok.1.inbound (hj.ok.1.due.mp hdue).1 hzero
    unfold Side.turn
    rw [(hj.back.peer_eq hcalm.out).1, hj.role_eq]
    exact hturn
  · next hne =>
    have := hj.back.turns hcalm.out hj.ok.1 hj.role_eq hcalm.started hne
    rwa [if_pos hdue] at this

theorem guards_understand_each_other {s : Two Side} (hs : Reachable s) {role : UInt8}
    (hrole : role ≤ 1) : Understands (s.get role) (s.get (1 - role)) := by
  have hj := joint_get hrole hs.joint
  refine ⟨?_, ?_, ?_, hj.due, hj.turns, ?_⟩
  · intro a ha
    exact (hj.send ha).mono (fun _ h => h) fun _ _ => trivial
  · intro m root native hm hroot hnative
    obtain ⟨s', h, _⟩ := (hj.symm.receive hm hroot hnative).exists_ok
    exact ⟨s', h⟩
  · rw [hj.back.peer, lastLane_eq_getD]
  · intro m hm n hn hkey
    obtain ⟨f, hf⟩ := hj.out.used m hm
    obtain ⟨f', hf'⟩ := hj.out.used n hn
    rw [hkey, hf'] at hf
    exact (congrArg Seen.generation (Option.some.inj hf)).symm

def freshDialog : Two Side := ⟨⟨⟨2, 0, .empty, .empty, false, none, none⟩, fun _ _ => none, [], 0⟩,
    ⟨⟨2, 1, .empty, .empty, false, none, none⟩, fun _ _ => none, [], 0⟩⟩

instance (s : Side) (a : SendArgs) : Decidable (s.Admissible a) :=
  decidable_of_iff ((if s.guard.own.next = 0 ∨ s.guard.rotateDue = true then ∀ m ∈ s.sent, m.event.key ≠ a.key
      else s.guard.own.key = some a.key) ∧ (∀ m ∈ s.sent, m.id ≠ a.id) ∧ s.guard.own.sequence.all (· < a.sequence))
    ⟨fun ⟨hkey, hid, hsequence⟩ => ⟨hkey, hid, by simpa [Option.all_eq_true] using hsequence⟩,
      fun ⟨hkey, hid, hsequence⟩ => ⟨hkey, hid, by simpa [Option.all_eq_true] using hsequence⟩⟩

/-- A send of a side, if it is admissible. -/
def sends (role : UInt8) (a : SendArgs) (s : Two Side) : Result (Two Side) := do
  Except.failIf (¬ (role ≤ 1 ∧ (s.get role).Admissible a)) (.input "send")
  let x ← (s.get role).send a
  return s.set role x

/-- The next event of the other side arrives. -/
def receives (role : UInt8) (s : Two Side) : Result (Two Side) := do
  Except.failIf (¬ role ≤ 1) (.input "role")
  let m ← Except.okOr (s.get (1 - role)).sent[(s.get role).received]? (.input "receive")
  let x ← (s.get role).receive m 0 0
  return s.set role x

theorem Reachable.sends {s s' : Two Side} {role : UInt8} {a : SendArgs} (hs : Reachable s)
    (h : sends role a s = .ok s') : Reachable s' := by
  simp only [Ordered2.sends, Except.ok_iff, not_not] at h
  obtain ⟨_, ⟨hrole, ha⟩, x, hx, rfl⟩ := h
  exact .send hs hrole ha hx

theorem Reachable.receives {s s' : Two Side} {role : UInt8} (hs : Reachable s)
    (h : receives role s = .ok s') : Reachable s' := by
  simp only [Ordered2.receives, Except.ok_iff, not_not] at h
  obtain ⟨_, hrole, m, hm, x, hx, rfl⟩ := h
  exact .receive hs hrole hm hx

/-- The first side sends, the second answers, and the first rotates its key; that event is on its way. -/
def sampleDialog : Result (Two Side) := do
  let s ← sends 0 ⟨1, 7, 8, 7, 0, 0⟩ freshDialog
  let s ← receives 1 s
  let s ← sends 1 ⟨1, 17, 18, 17, 0, 0⟩ s
  let s ← receives 0 s
  sends 0 ⟨2, 9, 10, 9, 0, 0⟩ s

theorem guards_understand_each_other_sample : ∃ s, Reachable s ∧
    (s.zero.sent.map (·.event.expected.g) = [0, 1] ∧ s.zero.received = 1 ∧ s.one.received = 1) ∧
      Understands (s.get 0) (s.get (1 - 0)) := by
  obtain ⟨s, hs, hp⟩ := Except.exists_of_any (x := sampleDialog) (p := fun s => decide
    (s.zero.sent.map (·.event.expected.g) = [0, 1] ∧ s.zero.received = 1 ∧ s.one.received = 1)) (by decide +kernel)
  simp only [sampleDialog, Except.ok_iff] at hs
  obtain ⟨_, h₁, _, h₂, _, h₃, _, h₄, h₅⟩ := hs
  have hstart : Reachable freshDialog := .start rfl rfl
  have hreached := ((((hstart.sends h₁).receives h₂).sends h₃).receives h₄).sends h₅
  exact ⟨s, hreached, of_decide_eq_true hp, guards_understand_each_other hreached (by decide)⟩

end Kilogram.Ordered2
