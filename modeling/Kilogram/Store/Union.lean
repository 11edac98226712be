import Kilogram.Store.Overlay

/-!
# The overlay and the merged store

What the overlay returns for a conversation is what a store with the files of both returns, apart
from the frontier: there the overlay takes the parents of its own events away, but keeps an event of
its own that an event of the base names as a parent.
-/

namespace Kilogram.Store
open Kilogram Std
open Except (ok_iff pure_eq_ok bind_of_ok mapError_eq_ok toOption_bind)
open List (map_cons map_map mem_append mem_cons mem_cons_of_mem mem_cons_self mem_filter mem_map mem_singleton
  pairwise_map)
open Maps (get_insert)
variable [Authority] {s : EventStore} {o : CommandEventReadOverlay} {c id : Id}
  {e : AuthorizedEvent} {m : ConversationMembershipSnapshot}

theorem event_persist (s : EventStore) (e : AuthorizedEvent) (c id : Id) :
    ((s.persistEvent e.event).persistAuthorization e).event c id =
      if e.event.conversationId = c ∧ e.event.eventId = id then some e.event else s.event c id := by
  rw [event_persistAuthorization, event_persistEvent]

theorem authorization_persist (s : EventStore) (e : AuthorizedEvent) (c id : Id) :
    ((s.persistEvent e.event).persistAuthorization e).authorization c id =
      if e.event.conversationId = c ∧ e.event.eventId = id then some e
      else s.authorization c id := by
  rw [authorization_persistAuthorization, authorization_persistEvent]

/-- Both files of each event are written. -/
def persistAll (s : EventStore) (events : List (Id × AuthorizedEvent)) : EventStore :=
  events.foldl (fun s f => (s.persistEvent f.2.event).persistAuthorization f.2) s

variable {events : List (Id × AuthorizedEvent)} {byId : TreeMap Id AuthorizedEvent}

theorem persistAll_of_not_mem (h : ∀ f ∈ events, ¬ (f.2.event.conversationId = c ∧ f.2.event.eventId = id)) :
    (persistAll s events).event c id = s.event c id ∧
      (persistAll s events).authorization c id = s.authorization c id := by
  induction events generalizing s with
  | nil => exact ⟨rfl, rfl⟩
  | cons f rest ih =>
    have hf := h f (.head _)
    obtain ⟨he, ha⟩ := ih (s := (s.persistEvent f.2.event).persistAuthorization f.2)
      fun g hg => h g (mem_cons_of_mem f hg)
    rw [event_persist, if_neg hf] at he
    rw [authorization_persist, if_neg hf] at ha
    exact ⟨he, ha⟩

variable {f : Id × AuthorizedEvent} {merged : TreeMap Id AuthorizedEvent}

theorem persistAll_of_mem (hkey : ∀ f ∈ events, f.2.event.eventId = f.1) (hnodup : (events.map Prod.fst).Nodup)
    (hf : f ∈ events) : (persistAll s events).event f.2.event.conversationId f.1 = some f.2.event ∧
      (persistAll s events).authorization f.2.event.conversationId f.1 = some f.2 := by
  induction events generalizing s with
  | nil => simp at hf
  | cons g rest ih =>
    rw [map_cons, List.nodup_cons] at hnodup
    have hrest := fun x hx => hkey x (mem_cons_of_mem g hx)
    rcases mem_cons.mp hf with rfl | hmem
    · have hid := hkey f (.head _)
      have hother : ∀ x ∈ rest, ¬ (x.2.event.conversationId = f.2.event.conversationId ∧
          x.2.event.eventId = f.1) := by
        rintro x hx ⟨_, heq⟩
        rw [hrest x hx] at heq
        exact hnodup.1 (mem_map.mpr ⟨x, hx, heq⟩)
      obtain ⟨he, ha⟩ := persistAll_of_not_mem (s := (s.persistEvent f.2.event).persistAuthorization f.2) hother
      rw [event_persist, if_pos ⟨rfl, hid⟩] at he
      rw [authorization_persist, if_pos ⟨rfl, hid⟩] at ha
      exact ⟨he, ha⟩
    · exact ih hrest hnodup.2 hmem

/-- What an overlay keeps: a committed event stands under its own id, is not in the base, and no
event of its conversation takes its place in the sequence of its author. -/
structure Coherent (o : CommandEventReadOverlay) : Prop where
  valid : ∀ {id : Id} {e : AuthorizedEvent}, o.committed[id]? = some e →
    e.event.eventId = id ∧ e.event.verify = .ok () ∧ Files o.base e.event.conversationId
  fresh : ∀ {id : Id} {e : AuthorizedEvent}, o.committed[id]? = some e → o.base.event e.event.conversationId id = none
  apart : ∀ {id id' : Id} {e : AuthorizedEvent} {e' : SignedEvent}, o.committed[id]? = some e →
    o.base.event e.event.conversationId id' = some e' → e'.position ≠ e.event.position
  position : ∀ {id id' : Id} {e e' : AuthorizedEvent}, o.committed[id]? = some e →
    o.committed[id']? = some e' → e.event.conversationId = e'.event.conversationId →
      e.event.position = e'.event.position → id = id'

omit [Authority] in
theorem mem_committedOf : f ∈ o.committedOf c ↔ o.committed[f.1]? = some f.2 ∧ f.2.event.conversationId = c := by
  rw [CommandEventReadOverlay.committedOf, mem_filter, decide_eq_true_eq, TreeMap.mem_toList_iff_getElem?_eq_some]

/-- A committed event of the conversation. -/
def Committed (o : CommandEventReadOverlay) (c id : Id) (e : AuthorizedEvent) : Prop :=
  o.committed[id]? = some e ∧ e.event.conversationId = c

namespace Coherent

theorem union_of_committed (h : Coherent o) (he : Committed o c id e) :
    o.union.event c id = some e.event ∧ o.union.authorization c id = some e := by
  obtain ⟨hid, rfl⟩ := he
  apply persistAll_of_mem (f := (id, e)) _ (Maps.nodup_keys _)
  · exact TreeMap.mem_toList_iff_getElem?_eq_some.mpr hid
  · intro f hf
    exact (h.valid (TreeMap.mem_toList_iff_getElem?_eq_some.mp hf)).1

theorem union_of_not_committed (h : Coherent o) (hno : ∀ e, ¬ Committed o c id e) :
    o.union.event c id = o.base.event c id ∧ o.union.authorization c id = o.base.authorization c id := by
  apply persistAll_of_not_mem
  rintro f hf ⟨hconv, hid⟩
  rw [TreeMap.mem_toList_iff_getElem?_eq_some] at hf
  rw [(h.valid hf).1] at hid
  exact hno f.2 ⟨hid ▸ hf, hconv⟩

variable {e' : SignedEvent}

theorem not_committed_of_base (h : Coherent o)
    (hbase : o.base.event c id = some e') (e : AuthorizedEvent) : ¬ Committed o c id e := by
  rintro ⟨he, rfl⟩
  cases (h.fresh he).symm.trans hbase

theorem union_event (h : Coherent o) : o.union.event c id = some e' ↔
      (∃ e, Committed o c id e ∧ e.event = e') ∨ o.base.event c id = some e' := by
  by_cases hc : ∃ e, Committed o c id e
  · obtain ⟨e, he⟩ := hc
    rw [(h.union_of_committed he).1]
    constructor
    · intro heq
      exact .inl ⟨e, he, Option.some.inj heq⟩
    · rintro (⟨e₂, he₂, rfl⟩ | hbase)
      · rw [Option.some.inj (he.1.symm.trans he₂.1)]
      · exact absurd he (h.not_committed_of_base hbase e)
  · rw [(h.union_of_not_committed (not_exists.mp hc)).1]
    exact ⟨.inr, fun h' => h'.resolve_left fun ⟨e, he, _⟩ => hc ⟨e, he⟩⟩

theorem union_authorization_of_base (h : Coherent o) (hbase : o.base.event c id = some e') :
    o.union.authorization c id = o.base.authorization c id :=
  (h.union_of_not_committed (h.not_committed_of_base hbase)).2

theorem files_iff (h : Coherent o) : Files o.union c ↔ Files o.base c := by
  constructor
  · intro hfiles
    refine ⟨fun he => hfiles.event (h.union_event.mpr (.inr he)), ?_⟩
    intro id id' e e' he he' hpos
    exact hfiles.position (h.union_event.mpr (.inr he)) (h.union_event.mpr (.inr he')) hpos
  · intro hfiles
    refine ⟨?_, ?_⟩
    · intro id e he
      rcases h.union_event.mp he with ⟨a, ha, rfl⟩ | he
      · exact ⟨(h.valid ha.1).2.1, (h.valid ha.1).1, ha.2⟩
      · exact hfiles.event he
    · intro id id' e e' he he' hpos
      rcases h.union_event.mp he with ⟨a, ha, rfl⟩ | he <;>
        rcases h.union_event.mp he' with ⟨a', ha', rfl⟩ | he'
      · exact h.position ha.1 ha'.1 (ha.2.trans ha'.2.symm) hpos
      · exact absurd hpos.symm (h.apart ha.1 (ha.2.symm ▸ he'))
      · exact absurd hpos (h.apart ha'.1 (ha'.2.symm ▸ he))
      · exact hfiles.position he he' hpos

/-- The authors of the committed events belong to the membership. -/
def Members (o : CommandEventReadOverlay) (c : Id) (m : ConversationMembershipSnapshot) : Prop :=
  ∀ id e, Committed o c id e → e.verifyForMembership m = .ok ()

theorem entitled_iff (h : Coherent o) : Entitled o.union c m ↔ Entitled o.base c m ∧ Members o c m := by
  constructor
  · intro hu
    refine ⟨⟨hu.membership, hu.conversation, h.files_iff.mp hu.files, ?_⟩, ?_⟩
    · intro id e he
      obtain ⟨a, ha, hsame, hok⟩ := hu.authorized (h.union_event.mpr (.inr he))
      rw [h.union_authorization_of_base he] at ha
      exact ⟨a, ha, hsame, hok⟩
    · intro id e he
      obtain ⟨hevent, hauth⟩ := h.union_of_committed he
      obtain ⟨a, ha, _, hok⟩ := hu.authorized hevent
      rwa [Option.some.inj (hauth.symm.trans ha)]
  · rintro ⟨hb, hmembers⟩
    refine ⟨hb.membership, hb.conversation, h.files_iff.mpr hb.files, ?_⟩
    intro id e he
    rcases h.union_event.mp he with ⟨a, ha, rfl⟩ | he
    · exact ⟨a, (h.union_of_committed ha).2, rfl, hmembers id a ha⟩
    · rw [h.union_authorization_of_base he]
      exact hb.authorized he

end Coherent

theorem verified_of_mergeCommitted
    {merged' : TreeMap Id AuthorizedEvent} (h : mergeCommitted m merged events = .ok merged') :
    ∀ f ∈ events, f.2.verifyForMembership m = .ok () := by
  induction events generalizing merged with
  | nil => simp
  | cons f rest ih =>
    simp only [mergeCommitted, checked, ok_iff, mapError_eq_ok] at h
    obtain ⟨⟨⟩, hf, _, _, hrest⟩ := h
    rw [List.forall_mem_cons]
    exact ⟨hf, ih hrest⟩

theorem exists_mergeCommitted (hkey : ∀ f ∈ events, f.2.event.eventId = f.1)
    (hnodup : (events.map Prod.fst).Nodup) (hfresh : ∀ f ∈ events, merged[f.1]? = none)
    (hok : ∀ f ∈ events, f.2.verifyForMembership m = .ok ()) :
    ∃ merged', mergeCommitted m merged events = .ok merged' ∧
      ∀ id e, merged'[id]? = some e ↔ (id, e) ∈ events ∨ merged[id]? = some e := by
  induction events generalizing merged with
  | nil => exact ⟨merged, rfl, by simp⟩
  | cons f rest ih =>
    rw [map_cons, List.nodup_cons] at hnodup
    have hf := hfresh f (.head _)
    have hid := hkey f (.head _)
    have hne : ∀ g ∈ rest, f.1 ≠ g.1 := fun g hg heq =>
      hnodup.1 (mem_map.mpr ⟨g, hg, heq.symm⟩)
    have hfresh' : ∀ g ∈ rest, (merged.insert f.1 f.2)[g.1]? = none := by
      intro g hg
      rw [get_insert, if_neg (hne g hg)]
      exact hfresh g (mem_cons_of_mem f hg)
    obtain ⟨merged', hmerge, hget⟩ := ih (fun g hg => hkey g (mem_cons_of_mem f hg))
      hnodup.2 hfresh' fun g hg => hok g (mem_cons_of_mem f hg)
    refine ⟨merged', ?_, ?_⟩
    · simp only [mergeCommitted, checked, ok_iff, mapError_eq_ok]
      rw [hid, hf]
      exact ⟨(), hok f (.head _), (), by simp, hmerge⟩
    · intro id e
      rw [hget, get_insert, mem_cons]
      by_cases heq : f.1 = id
      · subst heq
        rw [if_pos rfl, hf]
        simp only [Option.some.injEq, reduceCtorEq, or_false]
        constructor
        · rintro (h | rfl)
          · exact .inr h
          · exact .inl rfl
        · rintro (h | h)
          · exact .inr (congrArg Prod.snd h).symm
          · exact .inl h
      · rw [if_neg heq]
        have : ¬ (id, e) = f := fun h => heq (congrArg Prod.fst h).symm
        simp only [this, false_or]

/-- What the overlay has of a conversation. -/
def Holds (o : CommandEventReadOverlay) (c : Id) (y : StoredAuthorizedEvent) : Prop := Committed o c y.id y.event ∨
    o.base.event c y.id = some y.event.event ∧ o.base.authorization c y.id = some y.event

namespace Coherent
variable {vs : List StoredAuthorizedEvent}

theorem union_returns (h : Coherent o) : Returns o.union c vs ↔ Ordered vs ∧ ∀ y, y ∈ vs ↔ Holds o c y := by
  have hiff (y : StoredAuthorizedEvent) : o.union.event c y.id = some y.event.event ∧
      o.union.authorization c y.id = some y.event ↔ Holds o c y := by
    constructor
    · rintro ⟨he, ha⟩
      rcases h.union_event.mp he with ⟨a, hc, _⟩ | he
      · cases (h.union_of_committed hc).2.symm.trans ha
        exact .inl hc
      · rw [h.union_authorization_of_base he] at ha
        exact .inr ⟨he, ha⟩
    · rintro (hc | ⟨he, ha⟩)
      · exact h.union_of_committed hc
      · exact ⟨h.union_event.mpr (.inr he), (h.union_authorization_of_base he).trans ha⟩
  constructor
  · intro hr
    exact ⟨hr.ordered, fun y => hr.mem.trans (hiff y)⟩
  · rintro ⟨hordered, hmem⟩
    exact ⟨hordered, (hmem _).trans (hiff _).symm⟩

theorem committedOf_keys (h : Coherent o) :
    (∀ f ∈ o.committedOf c, f.2.event.eventId = f.1) ∧ ((o.committedOf c).map Prod.fst).Nodup :=
  ⟨fun _ hf => (h.valid (mem_committedOf.mp hf).1).1,
    (Maps.nodup_keys o.committed).sublist (List.filter_sublist.map Prod.fst)⟩

theorem exists_merged (h : Coherent o) (hmembers : Members o c m) {base : List StoredAuthorizedEvent}
    (hbase : Returns o.base c base) :
    ∃ merged, mergeCommitted m (TreeMap.ofList (base.map fun x => (x.id, x.event)))
      (o.committedOf c) = .ok merged ∧ ∀ y : StoredAuthorizedEvent, merged[y.id]? = some y.event ↔ Holds o c y := by
  have hget (id : Id) (e : AuthorizedEvent) :
      (TreeMap.ofList (base.map fun x => (x.id, x.event)))[id]? = some e ↔ ⟨id, e⟩ ∈ base := by
    rw [Maps.get_ofList]
    · simp only [mem_map, Prod.mk.injEq]
      constructor
      · rintro ⟨x, hx, rfl, rfl⟩
        exact hx
      · intro hx
        exact ⟨_, hx, rfl, rfl⟩
    · rw [map_map]
      refine pairwise_map.mpr (hbase.ordered.imp ?_)
      intro x y hlt (heq : x.id = y.id)
      rw [heq] at hlt
      simp at hlt
  obtain ⟨hkey, hnodup⟩ := h.committedOf_keys (c := c)
  have hfresh : ∀ f ∈ o.committedOf c, (TreeMap.ofList (base.map fun x => (x.id, x.event)))[f.1]? = none := by
    intro f hf
    by_contra hne
    obtain ⟨e, he⟩ := Option.ne_none_iff_exists'.mp hne
    exact h.not_committed_of_base (hbase.mem.mp ((hget _ _).mp he)).1 f.2 (mem_committedOf.mp hf)
  obtain ⟨merged, hmerge, hmerged⟩ := exists_mergeCommitted hkey hnodup hfresh
    fun f hf => hmembers f.1 f.2 (mem_committedOf.mp hf)
  refine ⟨merged, hmerge, fun y => ?_⟩
  rw [hmerged, hget, hbase.mem, mem_committedOf]
  rfl

theorem load_eq_ok_iff (h : Coherent o) : o.loadAuthorizedConversation c m = .ok vs ↔
      (Entitled o.base c m ∧ Members o c m) ∧ Ordered vs ∧ ∀ y, y ∈ vs ↔ Holds o c y := by
  have hlist {merged : TreeMap Id AuthorizedEvent}
      (hmerged : ∀ y : StoredAuthorizedEvent, merged[y.id]? = some y.event ↔ Holds o c y) :
      Ordered (merged.toList.map fun f => ⟨f.1, f.2⟩) ∧
        ∀ y, y ∈ merged.toList.map (fun f => (⟨f.1, f.2⟩ : StoredAuthorizedEvent)) ↔ Holds o c y := by
    refine ⟨pairwise_map.mpr TreeMap.ordered_keys_toList, fun y => ?_⟩
    rw [← hmerged, mem_map]
    constructor
    · rintro ⟨f, hf, rfl⟩
      exact TreeMap.mem_toList_iff_getElem?_eq_some.mp hf
    · intro hy
      exact ⟨(y.id, y.event), TreeMap.mem_toList_iff_getElem?_eq_some.mpr hy, rfl⟩
  constructor
  · intro hload
    simp only [CommandEventReadOverlay.loadAuthorizedConversation, ok_iff] at hload
    obtain ⟨base, hbase, merged, hmerge, _, _, rfl⟩ := hload
    obtain ⟨hentitled, hreturns⟩ := Store.load_eq_ok.mp hbase
    have hmembers : Members o c m := fun id e he =>
      verified_of_mergeCommitted hmerge (id, e) (mem_committedOf.mpr he)
    obtain ⟨merged', hmerge', hmerged⟩ := h.exists_merged hmembers hreturns
    cases hmerge.symm.trans hmerge'
    exact ⟨⟨hentitled, hmembers⟩, hlist hmerged⟩
  · rintro ⟨⟨hentitled, hmembers⟩, hordered, hmem⟩
    obtain ⟨base, hbase, hreturns⟩ := hentitled.exists_returns
    obtain ⟨merged, hmerge, hmerged⟩ := h.exists_merged hmembers hreturns
    have hstored := hlist hmerged
    have hpositions := (h.union_returns.mpr hstored).positions_nodup (h.files_iff.mpr hentitled.files)
    rw [Maps.eq_of_ordered hordered hstored.1 fun y => (hmem y).trans (hstored.2 y).symm]
    rw [CommandEventReadOverlay.loadAuthorizedConversation, bind_of_ok hbase, bind_of_ok hmerge]
    dsimp only
    rw [bind_of_ok (a := ()) (checkPositions_eq_ok.mpr ⟨hpositions, by simp⟩)]
    rfl

theorem load_eq_union (h : Coherent o) : o.loadAuthorizedConversation c m = .ok vs ↔
      o.union.loadAuthorizedConversation c m = .ok vs := by
  rw [h.load_eq_ok_iff, Store.load_eq_ok, h.entitled_iff, h.union_returns]

end Coherent

/-- Events that can be added to what the overlay has of a conversation. -/
structure Staged (o : CommandEventReadOverlay) (c : Id) (m : ConversationMembershipSnapshot)
    (events : List AuthorizedEvent) : Prop where
  member : ∀ e ∈ events, e.verifyForMembership m = .ok () ∧ e.event.conversationId = c
  new : ∀ e ∈ events, ∀ y, Holds o c y → y.id ≠ e.event.eventId ∧ y.event.event.position ≠ e.event.position
  apart : events.Pairwise fun a b => Distinct a.event b.event

/-- What the loop of a staging knows of the conversation. -/
structure Knows (o : CommandEventReadOverlay) (c : Id) (byId : TreeMap Id AuthorizedEvent)
    (positions : List ((Id × UInt64) × Id)) (staged : List AuthorizedEvent) : Prop where
  held : ∀ y, Holds o c y → byId[y.id]? ≠ none ∧ positions.lookup y.event.event.position ≠ none
  staged : ∀ e ∈ staged, byId[e.event.eventId]? ≠ none ∧ positions.lookup e.event.position ≠ none

theorem Knows.insert {positions : List ((Id × UInt64) × Id)}
    {staged : List AuthorizedEvent} (h : Knows o c byId positions staged) (e : AuthorizedEvent) :
    Knows o c (byId.insert e.event.eventId e) ((e.event.position, e.event.eventId) :: positions)
      (staged ++ [e]) := by
  have hid {id : Id} (hid : byId[id]? ≠ none) : (byId.insert e.event.eventId e)[id]? ≠ none := by
    rw [get_insert]
    split
    · simp
    · exact hid
  have hpos {p : Id × UInt64} (hp : positions.lookup p ≠ none) :
      ((e.event.position, e.event.eventId) :: positions).lookup p ≠ none := by
    rw [List.lookup_cons]
    split
    · simp
    · exact hp
  refine ⟨fun y hy => ⟨hid (h.held y hy).1, hpos (h.held y hy).2⟩, ?_⟩
  intro x hx
  rcases mem_append.mp hx with hx | hx
  · exact ⟨hid (h.staged x hx).1, hpos (h.staged x hx).2⟩
  · obtain rfl := mem_singleton.mp hx
    rw [get_insert, if_pos rfl, List.lookup_cons, beq_self_eq_true]
    simp

theorem Staged.append {staged : List AuthorizedEvent}
    {positions : List ((Id × UInt64) × Id)} (h : Staged o c m staged)
    (hknows : Knows o c byId positions staged) (hmember : e.verifyForMembership m = .ok ())
    (hconv : e.event.conversationId = c) (hid : byId[e.event.eventId]? = none)
    (hpos : positions.lookup e.event.position = none) : Staged o c m (staged ++ [e]) := by
  refine ⟨?_, ?_, ?_⟩
  · intro x hx
    rcases mem_append.mp hx with hx | hx
    · exact h.member x hx
    · obtain rfl := mem_singleton.mp hx
      exact ⟨hmember, hconv⟩
  · intro x hx y hy
    rcases mem_append.mp hx with hx | hx
    · exact h.new x hx y hy
    · obtain rfl := mem_singleton.mp hx
      exact ⟨fun heq => (hknows.held y hy).1 (heq ▸ hid), fun heq => (hknows.held y hy).2 (heq ▸ hpos)⟩
  · rw [List.pairwise_append]
    refine ⟨h.apart, List.pairwise_singleton _ _, ?_⟩
    intro x hx y hy
    obtain rfl := mem_singleton.mp hy
    exact ⟨fun heq => (hknows.staged x hx).1 (heq ▸ hid), fun heq => (hknows.staged x hx).2 (heq ▸ hpos)⟩

theorem staged_of_stageEvents {events staged staged' : List AuthorizedEvent} {positions : List ((Id × UInt64) × Id)}
    (h : stageEvents m c byId positions staged events = .ok staged')
    (hknows : Knows o c byId positions staged) (hstaged : Staged o c m staged) :
    Staged o c m staged' := by
  induction events generalizing byId positions staged with
  | nil =>
    obtain rfl := pure_eq_ok.mp h
    exact hstaged
  | cons e rest ih =>
    simp only [stageEvents, checked, ok_iff, mapError_eq_ok, not_not] at h
    obtain ⟨⟨⟩, hmember, _, hconv, h⟩ := h
    cases hid : byId[e.event.eventId]? with
    | some existing =>
      rw [hid] at h
      dsimp only at h
      split at h
      · simp at h
      · exact ih h hknows hstaged
    | none =>
      rw [hid] at h
      dsimp only at h
      cases hpos : positions.lookup e.event.position with
      | some existing =>
        rw [hpos] at h
        simp at h
      | none =>
        rw [hpos] at h
        exact ih h (hknows.insert e) (hstaged.append hknows hmember hconv hid hpos)

namespace Coherent

theorem staged (h : Coherent o) {events staged : List AuthorizedEvent}
    (hstage : o.stageCommitted events m = .ok staged) :
    staged = [] ∨ Entitled o.base m.conversationId m ∧ Staged o m.conversationId m staged := by
  simp only [CommandEventReadOverlay.stageCommitted, checked, ok_iff, mapError_eq_ok] at hstage
  obtain ⟨⟨⟩, hm, hstage⟩ := hstage
  cases events with
  | nil => exact .inl (pure_eq_ok.mp hstage).symm
  | cons first rest =>
    simp only [ok_iff, not_not] at hstage
    obtain ⟨⟨⟩, hconv, existing, hload, hstage⟩ := hstage
    rw [hconv] at hload hstage
    obtain ⟨⟨hentitled, _⟩, hordered, hmem⟩ := h.load_eq_ok_iff.mp hload
    refine .inr ⟨hentitled, staged_of_stageEvents hstage ⟨?_, by simp⟩ ⟨by simp, by simp, .nil⟩⟩
    intro y hy
    have hy := (hmem y).mpr hy
    constructor
    · rw [ne_eq, ← Maps.not_mem_iff, not_not, TreeMap.mem_ofList, List.contains_iff_mem, map_map]
      exact mem_map.mpr ⟨y, hy, rfl⟩
    · rw [ne_eq, List.lookup_eq_none_iff]
      intro hall
      have := hall _ (mem_map.mpr ⟨y, hy, rfl⟩)
      simp at this

theorem holds_of_base (hentitled : Entitled o.base c m) {id : Id} {e : SignedEvent}
    (he : o.base.event c id = some e) : ∃ a, a.event = e ∧ Holds o c ⟨id, a⟩ := by
  obtain ⟨a, ha, hsame, _⟩ := hentitled.authorized he
  exact ⟨a, hsame, .inr ⟨hsame ▸ he, ha⟩⟩

theorem insert (h : Coherent o) {rest : List AuthorizedEvent} (hentitled : Entitled o.base c m)
    (hstaged : Staged o c m (e :: rest)) :
    Coherent ⟨o.base, o.committed.insert e.event.eventId e⟩ := by
  obtain ⟨hmember, rfl⟩ := hstaged.member e (.head _)
  have hnew := hstaged.new e (.head _)
  have hvalid := valid_of_membership hmember
  refine ⟨?_, ?_, ?_, ?_⟩
  · intro id a ha
    rw [get_insert] at ha
    split at ha
    · next hid =>
      cases ha
      exact ⟨hid, hvalid.verify, hentitled.files⟩
    · exact h.valid ha
  · intro id a ha
    rw [get_insert] at ha
    split at ha
    · next hid =>
      cases ha
      by_contra hne
      obtain ⟨e', he'⟩ := Option.ne_none_iff_exists'.mp hne
      obtain ⟨a, _, hholds⟩ := holds_of_base hentitled he'
      exact (hnew _ hholds).1 hid.symm
    · exact h.fresh ha
  · intro id id' a e' ha he'
    rw [get_insert] at ha
    split at ha
    · cases ha
      obtain ⟨a, rfl, hholds⟩ := holds_of_base hentitled he'
      exact (hnew _ hholds).2
    · exact h.apart ha he'
  · intro id id' a a' ha ha' hconv hpos
    rw [get_insert] at ha ha'
    split at ha <;> split at ha'
    · next hid hid' => exact hid.symm.trans hid'
    · cases ha
      exact absurd hpos.symm (hnew ⟨id', a'⟩ (.inl ⟨ha', hconv.symm⟩)).2
    · cases ha'
      exact absurd hpos (hnew ⟨id, a⟩ (.inl ⟨ha, hconv⟩)).2
    · exact h.position ha ha' hconv hpos

theorem staged_insert {rest : List AuthorizedEvent} (hstaged : Staged o c m (e :: rest)) :
    Staged ⟨o.base, o.committed.insert e.event.eventId e⟩ c m rest := by
  obtain ⟨hfirst, hrest⟩ := List.pairwise_cons.mp hstaged.apart
  refine ⟨fun x hx => hstaged.member x (mem_cons_of_mem e hx), ?_, hrest⟩
  intro x hx y hy
  have hold : Holds o c y ∨ y = ⟨e.event.eventId, e⟩ := by
    rcases hy with ⟨hy, hconv⟩ | hy
    · rw [get_insert] at hy
      split at hy
      · next hid =>
        right
        cases y
        simp_all
      · exact .inl (.inl ⟨hy, hconv⟩)
    · exact .inl (.inr hy)
  rcases hold with hy | rfl
  · exact hstaged.new x (mem_cons_of_mem e hx) y hy
  · exact hfirst x hx

theorem commit (h : Coherent o) {staged : List AuthorizedEvent} {inserted : Nat}
    (hentitled : Entitled o.base c m) (hstaged : Staged o c m staged) :
    Coherent ⟨o.base, (commitEvents o.committed inserted staged).1⟩ := by
  induction staged generalizing o inserted with
  | nil => exact h
  | cons e rest ih =>
    unfold commitEvents
    split
    · split
      · exact h
      · have hrest : Staged o c m rest := ⟨fun x hx => hstaged.member x (mem_cons_of_mem e hx),
            fun x hx => hstaged.new x (mem_cons_of_mem e hx),
            (List.pairwise_cons.mp hstaged.apart).2⟩
        exact ih h hentitled hrest
    · exact ih (o := ⟨o.base, o.committed.insert e.event.eventId e⟩) (h.insert hentitled hstaged)
        hentitled (staged_insert hstaged)

end Coherent

theorem CommandEventReadOverlay.Reachable.coherent {base : EventStore}
    (h : CommandEventReadOverlay.Reachable base o) : Coherent o := by
  induction h with
  | new =>
    refine ⟨?_, ?_, ?_, ?_⟩ <;> intros <;> simp_all
  | commit _ hstage ih =>
    rcases ih.staged hstage with rfl | ⟨hentitled, hstaged⟩
    · exact ih
    · exact ih.commit hentitled hstaged

/-- The ids that events of a conversation name as parents. -/
def Parents (s : EventStore) (c id : Id) : Prop := ∃ id' e, s.event c id' = some e ∧ id ∈ e.parents

/-- The same for the committed events. -/
def CommittedParents (o : CommandEventReadOverlay) (c id : Id) : Prop :=
  ∃ id' e, Committed o c id' e ∧ id ∈ e.event.parents

theorem frontier_eq_ok (hfiles : Files s c) : ∃ ids, s.frontier c = .ok ids ∧
    (ids.Pairwise fun a b => compare a b = .lt) ∧ ∀ id, id ∈ ids ↔ s.event c id ≠ none ∧ ¬ Parents s c id := by
  have hstored (id : Id) : id ∈ (s.stored c).map StoredEvent.id ↔ s.event c id ≠ none := by
    rw [mem_map, Option.ne_none_iff_exists']
    constructor
    · rintro ⟨x, hx, rfl⟩
      exact ⟨x.event, mem_stored.mp hx⟩
    · rintro ⟨e, he⟩
      exact ⟨⟨id, e⟩, mem_stored.mpr he, rfl⟩
  have hparents (id : Id) : id ∈ (s.stored c).flatMap (·.event.parents) ↔ Parents s c id := by
    rw [List.mem_flatMap]
    constructor
    · rintro ⟨x, hx, hid⟩
      exact ⟨x.id, x.event, mem_stored.mp hx, hid⟩
    · rintro ⟨id', e, he, hid⟩
      exact ⟨⟨id', e⟩, mem_stored.mpr he, hid⟩
  refine ⟨_, by rw [EventStore.frontier, bind_of_ok hfiles.loadConversation]; rfl, ?_, ?_⟩
  · apply List.Pairwise.filter
    rw [EventStore.stored, map_map]
    exact pairwise_map.mpr TreeMap.ordered_keys_toList
  · intro id
    rw [mem_filter, hstored, decide_eq_true_eq, hparents]

theorem overlay_frontier_eq_ok (hfiles : Files o.base c) : ∃ ids, o.frontier c = .ok ids ∧
    (ids.Pairwise fun a b => compare a b = .lt) ∧
      ∀ id, id ∈ ids ↔ ((o.base.event c id ≠ none ∧ ¬ Parents o.base c id) ∨
        ∃ e, Committed o c id e) ∧ ¬ CommittedParents o c id := by
  obtain ⟨base, hbase, _, hmem⟩ := frontier_eq_ok hfiles
  have hcommitted (id : Id) : id ∈ (o.committedOf c).map Prod.fst ↔ ∃ e, Committed o c id e := by
    rw [mem_map]
    constructor
    · rintro ⟨f, hf, rfl⟩
      exact ⟨f.2, mem_committedOf.mp hf⟩
    · rintro ⟨e, he⟩
      exact ⟨(id, e), mem_committedOf.mpr he, rfl⟩
  have hparents (id : Id) : id ∈ (o.committedOf c).flatMap (·.2.event.parents) ↔ CommittedParents o c id := by
    rw [List.mem_flatMap]
    constructor
    · rintro ⟨f, hf, hid⟩
      exact ⟨f.1, f.2, mem_committedOf.mp hf, hid⟩
    · rintro ⟨id', e, he, hid⟩
      exact ⟨(id', e), mem_committedOf.mpr he, hid⟩
  refine ⟨_, by rw [CommandEventReadOverlay.frontier, bind_of_ok hbase]; rfl, ?_, ?_⟩
  · exact TreeSet.ordered_toList.filter _
  · intro id
    rw [mem_filter, decide_eq_true_eq, hparents, TreeSet.mem_toList, TreeSet.mem_ofList,
      List.contains_iff_mem, mem_append, hmem, hcommitted]

/-- No committed event is a parent of an event of the base only. -/
def ParentsCommitted (o : CommandEventReadOverlay) (c : Id) : Prop :=
  ∀ id e, Committed o c id e → Parents o.base c id → CommittedParents o c id

namespace Coherent

theorem parents_union (h : Coherent o) : Parents o.union c id ↔ CommittedParents o c id ∨ Parents o.base c id := by
  constructor
  · rintro ⟨id', e', he, hid⟩
    rcases h.union_event.mp he with ⟨a, ha, rfl⟩ | he
    · exact .inl ⟨id', a, ha, hid⟩
    · exact .inr ⟨id', e', he, hid⟩
  · rintro (⟨id', e', he, hid⟩ | ⟨id', e', he, hid⟩)
    · exact ⟨id', e'.event, h.union_event.mpr (.inl ⟨e', he, rfl⟩), hid⟩
    · exact ⟨id', e', h.union_event.mpr (.inr he), hid⟩

theorem event_union_ne_none (h : Coherent o) :
    o.union.event c id ≠ none ↔ (∃ e, Committed o c id e) ∨ o.base.event c id ≠ none := by
  simp only [Option.ne_none_iff_exists', h.union_event]
  constructor
  · rintro ⟨e', ⟨a, ha, _⟩ | he⟩
    · exact .inl ⟨a, ha⟩
    · exact .inr ⟨e', he⟩
  · rintro (⟨a, ha⟩ | ⟨e', he⟩)
    · exact ⟨a.event, .inl ⟨a, ha, rfl⟩⟩
    · exact ⟨e', .inr he⟩

theorem frontier_eq_union (h : Coherent o) :
    (o.frontier c).toOption = (o.union.frontier c).toOption ↔ ParentsCommitted o c := by
  by_cases hfiles : Files o.base c
  · obtain ⟨ids, hids, hordered, hmem⟩ := overlay_frontier_eq_ok hfiles
    obtain ⟨ids', hids', hordered', hmem'⟩ := frontier_eq_ok (h.files_iff.mpr hfiles)
    rw [hids, hids']
    constructor
    · intro heq id e he hparent
      obtain rfl : ids = ids' := Option.some.inj heq
      by_contra hno
      have := (hmem id).mpr ⟨.inr ⟨e, he⟩, hno⟩
      exact ((hmem' id).mp this).2 (h.parents_union.mpr (.inr hparent))
    · intro hcommitted
      suffices hsame : ids = ids' by rw [hsame]
      refine Maps.eq_of_ordered (f := fun x => x) hordered hordered' fun id => ?_
      rw [hmem, hmem', h.event_union_ne_none, h.parents_union, not_or]
      constructor
      · rintro ⟨⟨hbase, hparent⟩ | ⟨e, he⟩, hno⟩
        · exact ⟨.inr hbase, hno, hparent⟩
        · exact ⟨.inl ⟨e, he⟩, hno, fun hparent => hno (hcommitted id e he hparent)⟩
      · rintro ⟨he | hbase, hno, hparent⟩
        · exact ⟨.inr he, hno⟩
        · exact ⟨.inl ⟨hbase, hparent⟩, hno⟩
  · -- a conversation with committed events has files in order
    have herr (s : EventStore) (hs : ¬ Files s c) : ∃ x, s.loadConversation c = .error x := by
      cases hload : s.loadConversation c with
      | ok es => exact absurd (files_of_loadConversation hload) hs
      | error x => exact ⟨x, rfl⟩
    obtain ⟨x, hx⟩ := herr o.base hfiles
    obtain ⟨x', hx'⟩ := herr o.union fun hu => hfiles (h.files_iff.mp hu)
    refine iff_of_true ?_ ?_
    · rw [CommandEventReadOverlay.frontier, EventStore.frontier, EventStore.frontier, hx, hx']
      rfl
    · rintro id e ⟨he, rfl⟩
      exact absurd (h.valid he).2.2 hfiles

end Coherent

/-- The overlay returns what the merged store returns, and so does its frontier exactly where no
committed event is a parent of an event of the base only. Failed reads count as the same, whatever error
each of them gives. -/
theorem overlay_matches_union {base : EventStore} (h : CommandEventReadOverlay.Reachable base o)
    (c : Id) (m : ConversationMembershipSnapshot) (requested : List Id) :
    (o.loadAuthorizedConversation c m).toOption = (o.union.loadAuthorizedConversation c m).toOption ∧
      (authorizedInventory (o.loadAuthorizedConversation c m)).toOption =
        (authorizedInventory (o.union.loadAuthorizedConversation c m)).toOption ∧
      (authorizedEventsById (o.loadAuthorizedConversation c m) c requested).toOption =
        (authorizedEventsById (o.union.loadAuthorizedConversation c m) c requested).toOption ∧
      ((o.frontier c).toOption = (o.union.frontier c).toOption ↔ ParentsCommitted o c) := by
  have hload : (o.loadAuthorizedConversation c m).toOption = (o.union.loadAuthorizedConversation c m).toOption :=
    Except.toOption_eq fun _ => h.coherent.load_eq_union
  refine ⟨hload, ?_, ?_, h.coherent.frontier_eq_union⟩
  · unfold authorizedInventory
    rw [toOption_bind, toOption_bind, hload]
  · unfold authorizedEventsById
    rw [toOption_bind, toOption_bind, hload]

def overlayMembership : ConversationMembershipSnapshot := ⟨1, [3], []⟩
def overlayParent : AuthorizedEvent := ⟨⟨⟨5, 1, 2, 0, [], .acknowledgement 7⟩, []⟩, ⟨2, 3, []⟩, ⟨[]⟩⟩

/-- An event that names the parent, which arrives later. -/
def overlayChild : AuthorizedEvent :=
  ⟨⟨⟨5, 1, 2, 1, [@SignedEvent.eventId .plain overlayParent.event], .acknowledgement 8⟩, []⟩, ⟨2, 3, []⟩, ⟨[]⟩⟩

/-- The child alone. -/
def overlayBase : EventStore := (@EventStore.putAuthorized .plain ∅ overlayMembership overlayChild).1

/-- The child in the base, the parent committed. -/
def overlaySample : CommandEventReadOverlay :=
  (@CommandEventReadOverlay.commitStaged .plain ⟨overlayBase, ∅⟩ [overlayParent]).1

omit [Authority] in
theorem overlaySample_reachable : @CommandEventReadOverlay.Reachable .plain overlayBase overlaySample :=
  @CommandEventReadOverlay.Reachable.commit .plain _ _ [overlayParent] _ overlayMembership
    (@CommandEventReadOverlay.Reachable.new .plain _) (by decide +kernel)

omit [Authority] in
theorem overlay_matches_union_sample : @CommandEventReadOverlay.Reachable .plain overlayBase overlaySample ∧
      (@CommandEventReadOverlay.loadAuthorizedConversation .plain overlaySample 1
        overlayMembership).toOption = (@EventStore.loadAuthorizedConversation .plain
          (@CommandEventReadOverlay.union .plain overlaySample) 1 overlayMembership).toOption :=
  ⟨overlaySample_reachable, (@overlay_matches_union .plain _ _ overlaySample_reachable 1 overlayMembership []).1⟩

omit [Authority] in
/-- The frontier of the overlay has an event that another one names as its parent. -/
theorem overlay_frontier_has_parent : let _ := Authority.plain
    let parent := overlayParent.event.eventId
    let child := overlayChild.event.eventId
    CommandEventReadOverlay.Reachable overlayBase overlaySample ∧
      parent ∈ overlayChild.event.parents ∧ overlaySample.frontier 1 = .ok [parent, child] ∧
      overlaySample.union.frontier 1 = .ok [child] :=
  ⟨overlaySample_reachable, by decide +kernel, by decide +kernel, by decide +kernel⟩

end Kilogram.Store
