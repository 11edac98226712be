import Kilogram.Ratchet.Lanes

/-!
# The steps of one side

A side that is in order sends and receives what its guard expects, and is in order again.
-/

namespace Kilogram.Ordered2
open Kilogram
variable {x : UInt8} {X Y X' Y' : Side} {m : Sent} {a : SendArgs} {root native : UInt64}

structure Sends (x : UInt8) (X X' : Side) (m : Sent) : Prop where
  guard : X'.guard = { X.guard with own := m.lane, rotateDue := false }
  sent : X'.sent = X.sent ++ [m]
  received : X'.received = X.received
  noted : Noted x X.seen X'.seen m
  other : ∀ r ≠ x, ∀ k, X'.seen r k = X.seen r k
  ok : X'.guard.Ok
  first : m.lane.first = X.guard.own.first ∨ m.lane.first = some m.id

structure Receives (x : UInt8) (Y Y' : Side) (m : Sent) : Prop where
  guard : Y'.guard = Y.arrived m
  sent : Y'.sent = Y.sent
  received : Y'.received = Y.received + 1
  noted : Noted x Y.seen Y'.seen m
  other : ∀ r ≠ x, ∀ k, Y'.seen r k = Y.seen r k
  ok : Y'.guard.Ok

theorem Sends.link (h : Sends x X X' m) (hl : Link x X Y) : Link x X' Y :=
  hl.send h.sent (by rw [h.guard]) h.noted h.first

theorem Sends.link_back {y : UInt8} (h : Sends x X X' m) (hy : y ≠ x) (hl : Link y Y X) : Link y Y X' :=
  hl.congr_receiver h.received (by rw [h.guard]) (h.other y hy)

theorem Side.arrived_eq (Y : Side) (m : Sent) :
    (Y.arrived m).own = Y.guard.own ∧ (Y.arrived m).peer = m.lane ∧ (Y.arrived m).role = Y.guard.role := by
  unfold Side.arrived
  split <;> exact ⟨rfl, rfl, rfl⟩

theorem Receives.link (h : Receives x Y Y' m) (hl : Link x X Y) (hm : X.sent[Y.received]? = some m) : Link x X Y' :=
  hl.receive hm h.received (by rw [h.guard]; exact (Y.arrived_eq m).2.1) h.noted

theorem Receives.link_back {y : UInt8} (h : Receives x Y Y' m) (hy : y ≠ x) (hl : Link y Y X) : Link y Y' X :=
  hl.congr_sender h.sent (by rw [h.guard]; exact (Y.arrived_eq m).1) (h.other y hy)

namespace Guard2.Ok
variable {s : Guard2}

theorem continue_own (hs : s.Ok) (hm : Continues s.role s.own m) (hdue : s.rotateDue = false) :
    ({ s with own := m.lane, rotateDue := false } : Guard2).Ok := by
  obtain ⟨hne, hg, _, hfirst⟩ := hm.lane_eq
  refine ⟨hs.version, hs.role, hm.ok hs.own, hs.peer, ?_, hs.cause, fun _ h => absurd h hne,
    fun _ _ h => absurd h (by simp), ?_, ?_⟩
  · have h := hs.due
    rw [hdue] at h
    simpa only [hfirst] using h
  · intro hpeer _ _
    simpa only [hg] using hs.ahead hpeer hm.started hdue
  · intro hpeer _
    simpa only [hg] using hs.outbound hpeer hm.started

theorem continue_peer (hs : s.Ok) (hm : Continues (1 - s.role) s.peer m) :
    ({ s with peer := m.lane } : Guard2).Ok := by
  obtain ⟨hne, hg, _, hfirst⟩ := hm.lane_eq
  refine ⟨hs.version, hs.role, hs.own, hm.ok hs.peer, ?_, hs.cause.trans hfirst.symm, ?_, ?_, ?_,
    fun h => absurd h hne⟩
  · have h := hs.due
    simp only [ne_eq, hm.started, not_false_eq_true, true_and] at h
    simpa only [ne_eq, hne, not_false_eq_true, true_and] using h
  · intro _ hown
    simpa only [hg] using hs.inbound hm.started hown
  · intro _ hown hdue
    simpa only [hg] using hs.behind hm.started hown hdue
  · intro _ hown hdue
    simpa only [hg] using hs.ahead hm.started hown hdue

theorem start_own (hs : s.Ok) (hstart : s.MayStart) (hm : Starts s.role s.own s.peer.first m)
    (hused : s.usedOwnFirst ≠ some m.id) :
    ({ s with own := m.lane, rotateDue := false } : Guard2).Ok := by
  obtain ⟨hne, hg, _, hfirst⟩ := hm.lane_eq
  refine ⟨hs.version, hs.role, hm.ok hs.own, hs.peer, ?_, hs.cause, fun _ h => absurd h hne,
    fun _ _ h => absurd h (by simp), ?_, ?_⟩
  · simp only [Bool.false_eq_true, false_iff, not_and, hfirst]
    exact fun _ => hused
  · intro hpeer _ _
    simp only [hg]
    rcases hm.opening with ⟨hzero, he⟩ | ⟨hown, g, t, hgen, _, he⟩
    · obtain ⟨hrole, hturn, _⟩ := hs.inbound hpeer hzero
      rw [he, hturn, hrole]
      rfl
    · have hdue : s.rotateDue = true := hstart.resolve_right fun h => hown h.2
      have := hs.behind hpeer hown hdue
      rw [he]
      dsimp only
      omega
  · intro hpeer _
    have hdue : ¬ s.rotateDue = true := fun h => (hs.due.mp h).1 hpeer
    obtain ⟨hrole, hzero⟩ := hstart.resolve_left hdue
    refine ⟨hrole, ?_⟩
    simp only [hg]
    rcases hm.opening with ⟨_, he⟩ | ⟨hown, _⟩
    · rw [he]
    · exact absurd hzero hown

theorem start_peer (hs : s.Ok) (hm : Starts (1 - s.role) s.peer s.own.first m) (hturn : s.own.next ≠ 0 →
      s.own.g.toNat * 2 + s.role.toNat + 1 = m.event.expected.g.toNat * 2 + (1 - s.role).toNat)
    (hfirst : s.own.next = 0 → s.role = 1 ∧ s.peer.next = 0) : ({ s with
      rotateDue := true
      receivedNewFirst := some m.id
      usedOwnFirst := s.own.first
      peer := m.lane } : Guard2).Ok := by
  obtain ⟨hne, hg, _, hid⟩ := hm.lane_eq
  refine ⟨hs.version, hs.role, hs.own, hm.ok hs.peer, iff_of_true rfl ⟨hne, rfl⟩, hid.symm, ?_, ?_,
    fun _ _ h => absurd h (by simp), fun h => absurd h hne⟩
  · intro _ hown
    obtain ⟨hrole, hpeer⟩ := hfirst hown
    refine ⟨hrole, ?_, rfl⟩
    simp only [hg, hrole]
    rcases hm.opening with ⟨_, he⟩ | ⟨h, _⟩
    · rw [he]
      rfl
    · exact absurd hpeer h
  · intro _ hown _
    simpa only [hg] using hturn hown

end Guard2.Ok

theorem Link.not_seen {k : Id} (hl : Link x X Y) (hkey : ∀ m ∈ X.sent, m.event.key ≠ k) : X.seen x k = none := by
  by_contra hne
  obtain ⟨n, hn, hk⟩ := hl.only k hne
  exact hkey n hn hk

theorem key_ne_of_not_seen {seen : UInt8 → Id → Option Seen} {role : UInt8} {l : Lane} {k : Id}
    (hl : l.Ok role) (hseen : ∀ k f, l.key = some k → l.first = some f → seen x k = some ⟨l.g, f⟩)
    (hk : seen x k = none) : l.key ≠ some k := by
  intro hkey
  cases hf : l.first with
  | none =>
    have := hl.key.mpr (hl.first.mp hf)
    cases this.symm.trans hkey
  | some f => cases (hseen k f hkey hf).symm.trans hk

theorem send_continue (hs : X.guard.Ok) (hrole : X.guard.role = x) (hl : Link x X Y)
    (hne : X.guard.own.next ≠ 0) (hdue : X.guard.rotateDue = false) (ha : X.Admissible a) :
    (X.send a).Meets Exhausted fun X' => ∃ m, Continues x X.guard.own m ∧ Sends x X X' m := by
  subst hrole
  have hE (kind : Counter) : Exhausted (.counterExhausted kind) := ⟨kind, rfl⟩
  have hkey : X.guard.own.key = some a.key := by
    have := ha.key
    rwa [if_neg (by simp [hne, hdue])] at this
  obtain ⟨f, hf⟩ := Option.ne_none_iff_exists'.mp fun h => hne (hs.own.first.mp h)
  have hseen := hl.ownSeen _ f hkey hf
  have hcontinues (n : Sent) (hn : n.event.expected.g = X.guard.own.g ∧
        n.event.expected.index.toNat = X.guard.own.index.toNat + 1 ∧
        n.event.expected.parent = X.guard.own.parent ∧ n.event.expected.tail = none)
      (hheader : Header X.guard.role X.guard.own n.event) (hfits : Fits n.event)
      (hk : n.event.key = a.key)
      (hlane : ∃ next, next.toNat = n.event.n.toNat + 1 ∧
        n.lane = X.guard.own.record n.event n.id next) : Continues X.guard.role X.guard.own n :=
    ⟨hheader, hfits, hne, hk ▸ hkey, hn.1, hn.2.1, hn.2.2.1, hn.2.2.2, hlane⟩
  apply (Side.send_meets (T := fun _ => True) hs ha.sequence
    (Guard2.expectedSend_continue hs hne hdue (hE _)) (fun _ _ => Guard2.postTurn_continue hs hne hdue)
    (fun _ _ => hkey) ?_ ?_).mono (fun _ h => h)
  · rintro _ ⟨n, hn, _, hheader, hfits, hk, hid, hlane, hok, rfl⟩
    have hc := hcontinues n hn hheader hfits hk hlane
    refine ⟨n, hc, rfl, rfl, rfl, ?_, fun r hr k => note_of_role_ne hr k, hok, .inl hc.lane_eq.2.2.2⟩
    have := noted_continue (w := ⟨n.event.expected.g, a.id⟩) hc hf (hk.symm ▸ hseen)
    rwa [hk] at this
  · rintro y ⟨hg, _⟩
    rw [hg]
    exact Side.checkSeen_present hkey hf hseen
  · intro n hn _ hheader hfits hk _ hlane
    exact hs.continue_own (hcontinues n hn hheader hfits hk hlane) hdue

theorem send_start (hs : X.guard.Ok) (hrole : X.guard.role = x) (hl : Link x X Y)
    (hstart : X.guard.MayStart) (hused : X.guard.usedOwnFirst = X.guard.own.first)
    (ha : X.Admissible a) :
    (X.send a).Meets Exhausted fun X' => ∃ m, Starts x X.guard.own X.guard.peer.first m ∧
      X.seen x m.event.key = none ∧ X.guard.usedOwnFirst ≠ some m.id ∧ Sends x X X' m := by
  subst hrole
  have hE (kind : Counter) : Exhausted (.counterExhausted kind) := ⟨kind, rfl⟩
  have hfresh : X.seen X.guard.role a.key = none := by
    have := ha.key
    rw [if_pos (hstart.elim .inr fun h => .inl h.2)] at this
    exact hl.not_seen this
  have hkey : X.guard.own.key ≠ some a.key := key_ne_of_not_seen hs.own hl.ownSeen hfresh
  have hunused : X.guard.usedOwnFirst ≠ some a.id := by
    rw [hused]
    intro h
    obtain ⟨n, hn, hid⟩ := hl.first _ h
    exact ha.id n hn hid
  have hstarts (n : Sent) (hn : Opening X.guard.own X.guard.peer.first n.event.expected)
      (hturn : n.event.expected.g.toNat * 2 + X.guard.role.toNat < 2 ^ 64)
      (hheader : Header X.guard.role X.guard.own n.event) (hfits : Fits n.event)
      (hk : n.event.key = a.key)
      (hlane : ∃ next, next.toNat = n.event.n.toNat + 1 ∧ n.lane = X.guard.own.record n.event n.id next) :
      Starts X.guard.role X.guard.own X.guard.peer.first n :=
    ⟨hheader, hfits, hk ▸ hkey, hn, hturn, hlane⟩
  apply (Side.send_meets
    (T := fun g => g.toNat * 2 + X.guard.role.toNat < 2 ^ 64) hs ha.sequence
    (Guard2.expectedSend_start hs hstart (hE _))
    (fun e he => Guard2.postTurn_start hs hstart he (hE _)) ?_
    (fun y _ => Side.checkSeen_absent hkey hfresh) ?_).mono (fun _ h => h)
  · rintro _ ⟨n, hn, hturn, hheader, hfits, hk, hid, hlane, hok, rfl⟩
    have hc := hstarts n hn hturn hheader hfits hk hlane
    refine ⟨n, hc, hk ▸ hfresh, hid ▸ hunused, rfl, rfl, rfl, ?_,
      fun r hr k => note_of_role_ne hr k, hok, .inr hc.lane_eq.2.2.2⟩
    have := noted_start hc (hk.symm ▸ hfresh)
    rwa [hk, hid] at this
  · intro hne hdue
    rcases hstart with h | h
    · cases h.symm.trans hdue
    · exact absurd h.2 hne
  · intro n hn hturn hheader hfits hk hid hlane
    exact hs.start_own hstart (hstarts n hn hturn hheader hfits hk hlane) (hid ▸ hunused)

theorem receive_continue (hs : Y.guard.Ok) (hrole : 1 - Y.guard.role = x) (hl : Link x X Y)
    (hm : Continues x Y.guard.peer m) (hroot : root.toNat + 1 < 2 ^ 64)
    (hnative : native.toNat + 1 < 2 ^ 64) :
    (Y.receive m root native).Meets (fun _ => False) fun Y' =>
      Receives x Y Y' m ∧ Y'.guard = { Y.guard with peer := m.lane } := by
  subst hrole
  obtain ⟨f, hf⟩ := Option.ne_none_iff_exists'.mp fun h => hm.started (hs.peer.first.mp h)
  have hseen := hl.peerSeen _ f hm.key hf
  have harrived : Y.arrived m = { Y.guard with peer := m.lane } := if_pos hm.key
  have hok : (Y.arrived m).Ok := harrived ▸ hs.continue_peer hm
  apply Except.meets_of_eq_ok (Side.receive_eq_ok hs hroot hnative hm.header hm.fits
    (Guard2.expectedReceive_continue hm) (by rw [hm.g]; exact Side.checkSeen_present hm.key hf hseen)
    (Guard2.postTurn_receive_continue hs hm) hm.lane hok)
  exact ⟨⟨rfl, rfl, rfl, noted_continue hm hf hseen, fun r hr k => note_of_role_ne hr k, hok⟩, harrived⟩

theorem receive_start (hs : Y.guard.Ok) (hrole : 1 - Y.guard.role = x) (hl : Link x X Y)
    (hm : Starts x Y.guard.peer Y.guard.own.first m) (hfresh : Y.seen x m.event.key = none)
    (hdue : Y.guard.rotateDue = false)
    (hunused : Y.guard.own.next ≠ 0 → Y.guard.usedOwnFirst ≠ Y.guard.own.first)
    (hturn : Y.guard.own.next ≠ 0 → Y.guard.own.g.toNat * 2 + Y.guard.role.toNat + 1 =
      m.event.expected.g.toNat * 2 + x.toNat)
    (hfirst : Y.guard.own.next = 0 → Y.guard.role = 1 ∧ Y.guard.peer.next = 0)
    (hroot : root.toNat + 1 < 2 ^ 64) (hnative : native.toNat + 1 < 2 ^ 64) :
    (Y.receive m root native).Meets (fun _ => False) fun Y' =>
      Receives x Y Y' m ∧ Y'.guard.rotateDue = true := by
  subst hrole
  have hkey : Y.guard.peer.key ≠ some m.event.key := key_ne_of_not_seen hs.peer hl.peerSeen hfresh
  have harrived : Y.arrived m = { Y.guard with
      rotateDue := true
      receivedNewFirst := some m.id
      usedOwnFirst := Y.guard.own.first
      peer := m.lane } := if_neg hkey
  have hok : (Y.arrived m).Ok := harrived ▸ hs.start_peer hm hturn hfirst
  have hown : Y.guard.role = 0 → Y.guard.own.next ≠ 0 := by
    intro hzero hne
    exact absurd (hzero.symm.trans (hfirst hne).1) (by decide)
  apply Except.meets_of_eq_ok (Side.receive_eq_ok hs hroot hnative hm.header hm.fits
    (Guard2.expectedReceive_start hs hm hdue hown hunused fun hne hzero => hne (hfirst hzero).2)
    (Side.checkSeen_absent hkey hfresh) (Guard2.postTurn_receive_start hs hm hdue hturn hfirst)
    hm.lane hok)
  exact ⟨⟨rfl, rfl, rfl, noted_start hm hfresh, fun r hr k => note_of_role_ne hr k, hok⟩, by rw [harrived]⟩

end Kilogram.Ordered2
